import TreeSitterTextStorage.Library.Memo
import TreeSitterTextStorage.Storage.Queries

/-! # The attribute cache

The cache of a text storage is a memo table over the answers of queries. It is not transparent: the
entry of a location without token is read back one element too long, so a sequence of queries is
answered as without cache exactly when it asks no such location twice. -/

namespace TreeSitterTextStorage

open RangedTree
open RoseTree hiding node

/-- The memo table that the cache implements for a tree. -/
def queryMemo (language : Language) (theme : ColorTheme) (length : ℕ) (root : Node) :
    Memo ℕ CacheEntry Answer where
  fresh := answerAt language theme length root
  entry := entryAt language theme length root
  readBack := readBack theme

/-- **What is read back**: the entry of a location gives its answer exactly when a token colours the
location. -/
theorem readBack_entryAt_iff {language : Language} {theme : ColorTheme} {length : ℕ} {root : Node}
    {location : ℕ} :
    readBack theme (entryAt language theme length root location) =
        answerAt language theme length root location ↔
      tokenAt language theme length root location ≠ none := by
  rw [entryAt, answerAt]
  cases htoken : tokenAt language theme length root location with
  | some found =>
      obtain ⟨tokenNode, tokenType, color⟩ := found
      obtain ⟨-, -, -, hcolor, -, hlt⟩ :=
        storageToken_eq_some_iff.mp (tokenAt_eq_some_iff.mp htoken).2
      refine iff_of_true ?_ (Option.some_ne_none _)
      -- the closed range of a token node is read back as the range of the node
      have hrange := NSRange.ofClosedRange_ofCountableRange
        (TextStorage.ofCountableRange_range hlt)
      simp only [readBack, Option.bind_some, hcolor, Option.getD_some, hrange]
  | none =>
      -- the entry went through `uint32range`, which is one element longer
      refine iff_of_false ?_ (not_not_intro rfl)
      intro heq
      simp only [readBack, Answer.mk.injEq, Option.some.injEq, NSRange.ofClosedRange,
        CountableClosedRange.count, Nat.add_sub_cancel_left] at heq
      have hlength := congrArg NSRange.length heq.2
      simp only at hlength
      omega

namespace TextStorage

/-- The answers to a sequence of queries, each on the storage that the one before it leaves. -/
def answers (self : TextStorage) : List ℕ → Option (List Answer)
  | [] => some []
  | location :: rest => do
      let (answer, next) ← self.attributes location true
      let answers ← next.answers rest
      some (answer :: answers)

/-- **The cache refines the memo table**: queries on a storage that shows a text are the queries of
the memo table. -/
theorem Shows.answers_eq {self : TextStorage} {text : Text} {root : Node} (h : self.Shows text root)
    {locations : List ℕ} (hlocations : ∀ location ∈ locations, location < text.length) :
    self.answers locations =
      some ((queryMemo self.language self.theme text.length root).answers self.table locations) := by
  induction locations generalizing self with
  | nil => rfl
  | cons location rest ih =>
      have hlt := hlocations location List.mem_cons_self
      have hrest : ∀ other ∈ rest, other < text.length :=
        fun other hother => hlocations other (List.mem_cons_of_mem location hother)
      have hcache : location < self.cache.length := lt_of_lt_of_le hlt h.cache_le
      rw [answers, Memo.answers]
      cases hentry : self.cache[location] with
      | some entry =>
          have hhit : self.cache[location]? = some (some entry) := by
            rw [List.getElem?_eq_getElem hcache, hentry]
          have htable : self.table location = some entry := by rw [table, hhit, Option.join_some]
          rw [attributes_of_hit hhit, Memo.query_of_hit htable]
          simp only [Option.bind_eq_bind, Option.bind_some, ih h hrest]
          rfl
      | none =>
          have hmiss : self.cache[location]? = some none := by
            rw [List.getElem?_eq_getElem hcache, hentry]
          have htable : self.table location = none := by rw [table, hmiss, Option.join_some]
          have hnext := ih (h.withEntry location
            (entryAt self.language self.theme text.length root location)) hrest
          rw [h.attributes_of_miss hlt hmiss, Memo.query_of_miss htable]
          simp only [Option.bind_eq_bind, Option.bind_some, Bool.true_or, if_true, hnext,
            theme_withEntry, language_withEntry, table_withEntry hcache]
          rfl

/-- A sequence of queries is answered as if every query found the cache empty. -/
def CacheTransparent (self : TextStorage) (locations : List ℕ) : Prop :=
  ∃ answers, self.answers locations = some answers ∧
    locations.mapM (fun location => (self.attributes location true).map Prod.fst) = some answers

/-- On an empty cache every query answers from the tree. -/
theorem Shows.mapM_attributes {self : TextStorage} {text : Text} {root : Node}
    (h : self.Shows text root) (hempty : ∀ entry ∈ self.cache, entry = none) {locations : List ℕ}
    (hlocations : ∀ location ∈ locations, location < text.length) :
    locations.mapM (fun location => (self.attributes location true).map Prod.fst) =
      some (locations.map (answerAt self.language self.theme text.length root)) := by
  induction locations with
  | nil => rfl
  | cons location rest ih =>
      have hlt := hlocations location List.mem_cons_self
      rw [List.mapM_cons, h.attributes_of_miss hlt (h.cache_eq_none hempty hlt),
        ih fun other hother => hlocations other (List.mem_cons_of_mem location hother)]
      rfl

/-- **When the cache is transparent.** From an empty cache, a sequence of queries is answered as
without cache exactly when over every location that is asked more than once there is a node below the
root that passes the guards. -/
theorem cacheTransparent_iff {self : TextStorage} {text : Text} {root : Node}
    (h : self.Shows text root) (hempty : ∀ entry ∈ self.cache, entry = none) {locations : List ℕ}
    (hlocations : ∀ location ∈ locations, location < text.length) :
    self.CacheTransparent locations ↔
      ∀ location ∈ locations, 1 < locations.count location →
        ∃ node ∈ descent (covers location) root,
          isToken self.language self.theme text.length node = true := by
  have htable : self.table = fun _ => none := by
    funext location
    rw [table]
    cases hentry : self.cache[location]? with
    | none => rfl
    | some entry => rw [hempty entry (List.mem_of_getElem? hentry), Option.join_some]
  have htransparent : self.CacheTransparent locations ↔
      (queryMemo self.language self.theme text.length root).answers self.table locations =
        locations.map (queryMemo self.language self.theme text.length root).fresh := by
    rw [CacheTransparent, h.answers_eq hlocations, h.mapM_attributes hempty hlocations]
    simp only [Option.some.injEq, exists_eq_left']
    exact eq_comm
  rw [htransparent, htable, Memo.answers_eq_map_iff Memo.consistent_empty]
  refine forall₂_congr fun location _ => ?_
  simp only [ne_eq, not_true_eq_false, false_or]
  exact imp_congr_right fun _ => readBack_entryAt_iff.trans tokenAt_ne_none_iff_descent

/-- Queries on `[1]` that ask only the number twice. -/
theorem cacheTransparent_iff_array :
    arrayStorage.CacheTransparent [1, 0, 1, 2] ↔
      ∀ location ∈ [1, 0, 1, 2], 1 < [1, 0, 1, 2].count location →
        ∃ node ∈ descent (covers location) arrayRoot,
          isToken arrayStorage.language arrayStorage.theme arrayText.length node = true :=
  cacheTransparent_iff shows_arrayStorage (fun _ => eq_none_of_mem_cache_opened) (by decide)

/-- The bracket of `[1]` gets another effective range when it is asked again. -/
theorem not_cacheTransparent_bracket :
    ¬ ∀ (self : TextStorage) (text : Text) (root : Node), self.Shows text root →
      (∀ entry ∈ self.cache, entry = none) → ∀ locations : List ℕ,
        (∀ location ∈ locations, location < text.length) → self.CacheTransparent locations := by
  intro hall
  obtain ⟨answers, hanswers, hfresh⟩ := hall arrayStorage arrayText arrayRoot shows_arrayStorage
    (fun _ => eq_none_of_mem_cache_opened) [0, 0] (by decide)
  have hdiffer : arrayStorage.answers [0, 0] ≠
      [0, 0].mapM fun location => (arrayStorage.attributes location true).map Prod.fst := by
    decide +kernel
  exact hdiffer (hanswers.trans hfresh.symm)

end TextStorage

end TreeSitterTextStorage
