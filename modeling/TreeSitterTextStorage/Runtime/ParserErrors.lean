import TreeSitterTextStorage.Runtime.ParserReduce

/-! # Accepting and handling errors keep the text

A version that is accepted becomes a finished tree: all trees on it lead from the start of the text
to where it ends. When no action is left, versions are repaired, reduced, or go on behind an error,
and nothing of the text is lost on any of them. -/

namespace TreeSitterTextStorage

open Program RoseTree

variable {α π : Type} {language : TSLanguage} {input : TSInput π}
  {task : ParseTask α language input}
  {since next address : ℕ} {positions : List (Option Length)} {parser parser' : TSParser π}
  {p q : Length} {version fuel : ℕ}

/-! ## Accepting -/

/-- What leads on from the start of the text is at its front. -/
theorem Stretch.of_zero {metric : Metric α} {text own : List α}
    (h : Stretch metric text Length.zero q own) : ∃ rest, text = own ++ rest := by
  obtain ⟨front, rest, htext, hzero, -⟩ := h
  have hfront : front = [] := List.length_eq_zero_iff.mp (congrArg Length.chars hzero).symm
  subst hfront
  exact ⟨rest, htext⟩

/-- **The root of a finished tree** spans the text up to where its version ends, unless the last
tree that counts is a token, whose text is lost. -/
theorem finished_acceptedRoot {trees : List SyntaxTree} {root : SyntaxTree}
    (htrees : task.LeadAmong address Length.zero q trees)
    (h : acceptedRoot address trees = some root) : task.Finished (address + 1) root := by
  obtain ⟨own, hown, hbuilt⟩ := htrees
  have hshort := Nat.lt_of_le_of_lt hown.bytesOf_le task.short
  obtain ⟨rest, htext⟩ := hown.of_zero
  by_cases hsingle : ∃ tree, trees = [tree]
  · obtain ⟨tree, rfl⟩ := hsingle
    rw [acceptedRoot, Option.some.injEq] at h
    subst h
    refine ⟨own, [], [], rest, htext, ?_⟩
    rw [List.append_nil]
    exact (builtAmong_singleton.mp hbuilt).mono (Nat.le_succ _)
  · -- the last tree that counts takes in all others
    have hroot : acceptedRoot address trees =
      ((tsTreeArrayRemoveTrailingExtras trees).1.getLast?.map fun child =>
        tsTreeSetChildren (tsTreeMakeCopy address child).label
          ((tsTreeArrayRemoveTrailingExtras trees).1.dropLast ++ child.children ++
            (tsTreeArrayRemoveTrailingExtras trees).2)) := by
      unfold acceptedRoot
      split
      · exact absurd ⟨_, rfl⟩ hsingle
      · rfl
    rw [hroot, Option.map_eq_some_iff] at h
    obtain ⟨child, hchild, rfl⟩ := h
    have hsplit := removeTrailingExtras_append trees
    generalize (tsTreeArrayRemoveTrailingExtras trees).1 = kept at *
    generalize (tsTreeArrayRemoveTrailingExtras trees).2 = extras at *
    obtain ⟨front, rfl⟩ := List.getLast?_eq_some_iff.mp hchild
    rw [List.dropLast_concat] at *
    subst hsplit
    obtain ⟨content, back, rfl, hcontent, hback⟩ := builtAmong_append.mp hbuilt
    obtain ⟨before, last, rfl, hbefore, hlast⟩ := builtAmong_append.mp hcontent
    rw [builtAmong_singleton] at hlast
    have hsettled := hlast.settled.root
    obtain ⟨self, grandchildren⟩ := child
    have hparent : ∀ parent, (tsTreeMakeCopy address (.node self grandchildren)).label.parent =
        some parent → parent < address := hsettled.parent_lt
    have hset : ∀ {text}, BuiltAmong task.metric address (front ++ grandchildren ++ extras) text →
        front ++ grandchildren ++ extras ≠ [] → task.metric.bytesOf text < 2 ^ 32 →
        Built task.metric (address + 1) (tsTreeSetChildren
          (tsTreeMakeCopy address (.node self grandchildren)).label
          (front ++ grandchildren ++ extras)) text :=
      fun htrees hne hlt => built_setChildren htrees hne hlt hsettled.unmarked rfl hparent
    -- a last tree without children gives its own text away
    by_cases hleaf : grandchildren = []
    · subst hleaf
      refine ⟨before, last, back, rest, by rw [htext]; simp, hset ?_ ?_ ?_⟩
      · rw [List.append_nil]
        exact builtAmong_append.mpr ⟨before, back, rfl, hbefore, hback⟩
      · intro hnil
        simp only [List.append_nil, List.append_eq_nil_iff] at hnil
        exact hsingle ⟨_, by rw [hnil.1, hnil.2]; rfl⟩
      · simp only [Metric.bytesOf_append] at hshort ⊢
        omega
    · refine ⟨before ++ last ++ back, [], [], rest, by rw [htext]; simp, ?_⟩
      rw [List.append_nil]
      refine hset ?_ (by simp [hleaf]) hshort
      exact builtAmong_append.mpr ⟨_, back, rfl, builtAmong_append.mpr
        ⟨before, last, rfl, hbefore, hlast.children hleaf⟩, hback⟩

/-- One turn of the loop of `parser__accept` over the slices. -/
theorem TSParser.Sound.finish {trees : List SyntaxTree} {result : PUnit}
    (h : parser.Sound task since positions) (htrees : task.LeadAmong since Length.zero q trees)
    (hrun : parserFinish trees parser = some (result, parser')) :
    parser'.Sound task since positions := by
  rw [parserFinish, bind_eq_some_iff] at hrun
  obtain ⟨address, allocated, hallocate, hrun⟩ := hrun
  obtain ⟨rfl, rfl⟩ := parserAllocate_eq_some_iff.mp hallocate
  rw [bind_eq_some_iff] at hrun
  obtain ⟨root, _, haccepted, hrun⟩ := hrun
  obtain ⟨hroot, rfl⟩ := ofOption_eq_some_iff.mp haccepted
  obtain rfl := modify_eq_some_iff.mp hrun
  have hallocated := h.allocate.earlier (Nat.le_succ_of_le h.since_le)
  have hfinished := finished_acceptedRoot (htrees.mono h.since_le) hroot
  refine { hallocated with finished := fun tree htree => ?_ }
  simp only at htree
  -- a finished tree of before stays, unless the new one is better
  cases hold : parser.finishedTree with
  | none =>
      rw [hold, Option.some.injEq] at htree
      exact htree ▸ hfinished
  | some finished =>
      rw [hold] at htree
      simp only at htree
      split at htree
      · exact Option.some.inj htree ▸ hfinished
      · exact hallocated.finished tree (hold.trans htree)

/-- **`parser__accept`** finishes the version and gives it up. -/
theorem TSParser.Sound.accept {lookahead result : SyntaxTree}
    (h : parser.Sound task since positions) (hversion : positions[version]? = some (some p))
    (htree : task.Leads since p q lookahead)
    (hrun : parserAccept fuel version lookahead parser = some (result, parser')) :
    (∃ positions', parser'.Sound task since positions') ∧ parser'.HaltedAt version ∧
      task.Leads parser'.nextAddress p q result := by
  rw [parserAccept] at hrun
  split at hrun
  · exact absurd hrun (by rw [trap_eq_some_iff]; exact id)
  · rw [bind_eq_some_iff] at hrun
    obtain ⟨_, pushed, hpush, hrun⟩ := hrun
    have hpushed := h.push hversion (leads_setExtra htree) hpush
    rw [bind_eq_some_iff] at hrun
    obtain ⟨slices, popped, hpop, hrun⟩ := hrun
    obtain ⟨stack, hpopping, rfl⟩ := onStack_eq_some_iff.mp hpop
    obtain ⟨added, hstands, hslices⟩ :=
      tsStackPopAll_stands hpushed.stack (getElem?_set_position hversion) hpopping
    rw [bind_eq_some_iff] at hrun
    obtain ⟨_, finished, hfinish, hrun⟩ := hrun
    -- every slice goes back to the start of the text
    have hfinished : finished.Sound task pushed.nextAddress
      (positions.set version (some q) ++ added) := by
      refine @Triple.forEach _ _ _ _ (fun _ finished => finished.Sound task pushed.nextAddress
        (positions.set version (some q) ++ added)) _
        (fun slice hslice _ => ?_) () _ _ finished (hpushed.now.withStack hstands) hfinish
      rintro middle _ next hmiddle hturn
      obtain ⟨-, start, own, -, rfl, hown, hbuilt⟩ := hslices.spans slice hslice
      exact hmiddle.finish ⟨own, hown, hbuilt⟩ hturn
    cases slices with
    | nil => exact absurd hrun (by simp only [trap_eq_some_iff, not_false_eq_true])
    | cons slice rest =>
        simp only [bind_eq_some_iff] at hrun
        obtain ⟨_, removed, hremove, _, halted, hhalt, hrun⟩ := hrun
        obtain ⟨rfl, rfl⟩ := pure_eq_some_iff.mp hrun
        have hhalted := ((hfinished.removeVersion hremove).halt hhalt).1
        exact ⟨⟨_, hhalted.earlier hpushed.since_le⟩, haltedAt_halt hhalt,
          leads_setExtra (htree.mono (Nat.le_trans hpushed.since_le hhalted.since_le))⟩

/-! ## Repairing errors -/

/-- Any callback at all. -/
theorem callbackKeeps_trivial {δ : Type} (callback : StackIterateCallback δ) :
    CallbackKeeps (fun _ _ => True) (fun _ => True) (fun _ => True) callback where
  nil := trivial
  keeps := by
    intro payload slices state trees isDone isPending pop stop payload' _ _ _ _
    refine ⟨fun _ _ => trivial, ?_⟩
    cases pop with
    | false => trivial
    | true => exact ⟨fun _ _ => trivial, fun _ _ _ _ _ => trivial⟩

/-- A version behind a given one is removed. -/
theorem eraseIdx_behind {position : Option Length} {added : List (Option Length)}
    (h : positions.length < version) :
    (positions ++ position :: added).eraseIdx version =
      positions ++ position :: added.eraseIdx (version - positions.length - 1) := by
  rw [List.eraseIdx_append_of_length_le (Nat.le_of_lt h)]
  obtain ⟨index, hindex⟩ := Nat.exists_eq_succ_of_ne_zero (Nat.sub_ne_zero_of_lt h)
  rw [hindex, List.eraseIdx_cons_succ, Nat.succ_sub_one]

/-- What a repair puts together leads from where the trees below the error start to where the trees
above it end. -/
theorem leadAmong_repairedChildren {skipCount : ℕ} {below above children : List SyntaxTree}
    {error : SyntaxTree} {r : Length} (hbelow : task.LeadAmong address p r below)
    (habove : task.LeadAmong address r q above)
    (h : repairedChildren address skipCount below above = some (error, children)) :
    task.LeadAmong (address + 1) p q children := by
  rw [repairedChildren, Option.map_eq_some_iff] at h
  obtain ⟨⟨kept, skipped⟩, hremove, heq⟩ := h
  obtain ⟨rfl, rfl⟩ := Prod.mk.inj heq
  rw [← removeLastN_append hremove] at hbelow
  obtain ⟨s, hkept, hskipped⟩ := leadAmong_append.mp hbelow
  rw [← removeTrailingExtras_append skipped] at hskipped
  obtain ⟨t, herror, htrailing⟩ := leadAmong_append.mp hskipped
  have hle := Nat.le_succ address
  refine leadAmong_append.mpr ⟨s, hkept.mono hle,
    leadAmong_cons.mpr ⟨t, herror.makeErrorNode task.short, ?_⟩⟩
  exact leadAmong_append.mpr ⟨r, htrailing.mono hle, habove.mono hle⟩

/-- Removing the versions of the slices that are not taken. -/
theorem TSParser.Sound.removeOthers {slices : List StackSlice} {position : Option Length}
    {added : List (Option Length)} {result : PUnit}
    (h : parser.Sound task since (positions ++ position :: added))
    (hslices : ∀ slice ∈ slices, positions.length < slice.version)
    (hrun : parserRemoveOthers slices parser = some (result, parser')) :
    ∃ added', parser'.Sound task since (positions ++ position :: added') := by
  refine @Triple.forEach _ _ _ _ (fun _ parser' =>
    ∃ added', parser'.Sound task since (positions ++ position :: added')) _
      (fun pair hpair _ => ?_) () parser
    result parser' ⟨added, h⟩ hrun
  rintro middle _ next ⟨added', hsound⟩ hturn
  unfold guarded at hturn
  split at hturn
  · have hmem := (List.of_mem_zip (List.mem_reverse.mp hpair)).1
    have hremoved := hsound.removeVersion hturn
    rw [eraseIdx_behind (hslices _ ((List.dropLast_sublist _).subset hmem))] at hremoved
    exact ⟨_, hremoved⟩
  · obtain ⟨-, rfl⟩ := pure_eq_some_iff.mp hturn
    exact ⟨added', hsound⟩

/-- **`parser__repair_error`** leaves the versions in front of that of the slice where they are. The
version of the slice is gone, or it goes on where the trees of the slice lead. -/
theorem TSParser.Sound.repairError {slice : StackSlice} {lookaheadSymbol : UInt16}
    {entry : TableEntry} {repaired : Bool} (h : parser.Sound task since (positions ++ [some p]))
    (hslice : slice.version = positions.length) (htrees : task.LeadAmong since p q slice.trees)
    (hrun : parserRepairError language fuel slice lookaheadSymbol entry parser =
      some (repaired, parser')) :
    ∃ added, parser'.Sound task since (positions ++ added) ∧
      (repaired = true → added[0]? = some (some q)) := by
  rw [parserRepairError, bind_eq_some_iff] at hrun
  obtain ⟨⟨slices, session⟩, iterated, hiterate, hrun⟩ := hrun
  obtain ⟨stack, hiterating, rfl⟩ := onStack_eq_some_iff.mp hiterate
  have hversion : (positions ++ [some p])[slice.version]? = some (some p) := by
    rw [hslice, List.getElem?_concat_length]
  obtain ⟨-, added, hstands, hslices⟩ :=
    stackIter_stands h.stack (callbackKeeps_trivial _) hversion trivial hiterating
  rw [List.append_assoc, List.singleton_append] at hstands hslices
  have hsound := h.now.withStack hstands
  simp only at hrun
  split at hrun
  · rw [bind_eq_some_iff] at hrun
    obtain ⟨_, removed, hremove, hrun⟩ := hrun
    obtain ⟨rfl, rfl⟩ := pure_eq_some_iff.mp hrun
    have hremoved := hsound.removeVersion hremove
    rw [hslice, List.eraseIdx_append_of_length_le (Nat.le_refl _), Nat.sub_self, List.eraseIdx_zero,
      List.tail_cons] at hremoved
    exact ⟨added, hremoved.earlier h.since_le, fun hfalse => absurd hfalse Bool.false_ne_true⟩
  · cases hlast : slices.getLast? with
    | none =>
        rw [hlast] at hrun
        exact absurd hrun (by simp only [trap_eq_some_iff, not_false_eq_true])
    | some newSlice =>
        simp only [hlast, bind_eq_some_iff] at hrun
        obtain ⟨_, renumbered, hrenumber, _, others, hothers, _, _, hallocate, ⟨error, children⟩,
          _, hrepair, _, _, hallocate', _, pushed, hpush, _, decreased, hdecrease, status, _,
          hstatus, better, compared, hbetter, _, last, hhalt, hrun⟩ := hrun
        have hbehind : ∀ other ∈ slices, positions.length < other.version := by
          intro other hother
          have hle := (hslices.spans other hother).1
          rw [List.length_append, List.length_singleton] at hle
          exact hle
        obtain ⟨-, p', own, hp', -, hown, hbuilt⟩ :=
          hslices.spans newSlice (List.mem_of_getLast? hlast)
        -- the version of the slice goes back to where the trees below the error start
        obtain ⟨stack', hrenumbering, rfl⟩ := onStack_eq_some_iff.mp hrenumber
        obtain ⟨-, p'', hp'', hrenumbered⟩ :=
          tsStackRenumberVersion_stands hsound.stack hrenumbering
        rw [hp', Option.some.injEq] at hp''
        subst hp''
        rw [hslice, List.set_append_right _ _ (Nat.le_refl _), Nat.sub_self, List.set_cons_zero,
          eraseIdx_behind (hbehind newSlice (List.mem_of_getLast? hlast))] at hrenumbered
        obtain ⟨added', hothers⟩ := (hsound.withStack hrenumbered).removeOthers hbehind hothers
        obtain ⟨rfl, rfl⟩ := parserAllocate_eq_some_iff.mp hallocate
        obtain ⟨hrepaired, rfl⟩ := ofOption_eq_some_iff.mp hrepair
        obtain ⟨rfl, rfl⟩ := parserAllocate_eq_some_iff.mp hallocate'
        have hchildren := leadAmong_repairedChildren
          (LeadAmong.mono ⟨own, hown, hbuilt⟩ hothers.since_le)
          (htrees.mono (Nat.le_trans h.since_le hothers.since_le)) hrepaired
        have hat : (positions ++ some p' :: added')[slice.version]? = some (some p') := by
          rw [hslice, List.getElem?_append_right (Nat.le_refl _), Nat.sub_self,
            List.getElem?_cons_zero]
        have hpushed := hothers.allocate.allocate.push hat (hchildren.makeNode task.short) hpush
        rw [hslice, List.set_append_right _ _ (Nat.le_refl _), Nat.sub_self,
          List.set_cons_zero] at hpushed
        obtain rfl := eq_of_reads (reads_errorStatus _) hstatus
        have hcompared := ((hpushed.decreasePushCount hdecrease).betterVersionExists
          hbetter).1.earlier (Nat.le_succ_of_le
          (Nat.le_succ_of_le (Nat.le_trans h.since_le hothers.since_le)))
        obtain ⟨rfl, rfl⟩ := pure_eq_some_iff.mp hrun
        have hdone : last.Sound task since (positions ++ some q :: added') := by
          unfold guarded at hhalt
          split at hhalt
          · exact (hcompared.halt hhalt).1
          · obtain ⟨-, rfl⟩ := pure_eq_some_iff.mp hhalt
            exact hcompared
        exact ⟨_, hdone, fun _ => rfl⟩

/-! ## Reducing whatever can be reduced -/

/-- The loop of `parser__do_potential_reductions` over the reductions. -/
theorem TSParser.Sound.tryReductions {reduceActions : List ReduceAction} {didReduce : Bool}
    (h : parser.Sound task since positions) (hversion : positions[version]? = some (some q))
    (hrun : parserTryReductions language fuel version reduceActions parser =
      some (didReduce, parser')) :
    ∃ added, (∀ position ∈ added, position = some q) ∧
      parser'.Sound task since (positions ++ added) := by
  refine @Triple.forEach _ _ _ _ (fun _ parser' => ∃ added,
    (∀ position ∈ added, position = some q) ∧ parser'.Sound task since (positions ++ added)) _
    (fun action _ didReduce => ?_) false parser didReduce parser'
    ⟨[], fun _ hposition => absurd hposition List.not_mem_nil, by rwa [List.append_nil]⟩ hrun
  rintro middle didReduce' next ⟨added, hadded, hsound⟩ hturn
  rw [bind_eq_some_iff] at hturn
  obtain ⟨reduction, reduced, hreduce, hturn⟩ := hturn
  have hversion' : (positions ++ added)[version]? = some (some q) := by
    rw [List.getElem?_append_left (List.getElem?_eq_some_iff.mp hversion).1, hversion]
  obtain ⟨positions', hsound', hreduced⟩ := hsound.reduce hversion' hreduce
  rw [ParseTask.Reduced] at hreduced
  split at hturn
  · next hstopped =>
      rw [if_pos hstopped] at hreduced
      -- stopped at an error: the slice is removed again, and nothing has been added
      obtain ⟨slice, p, hslices, hslice, rfl, -⟩ := hreduced
      rw [hslices] at hturn
      simp only [bind_eq_some_iff, pure_eq_some_iff] at hturn
      obtain ⟨_, _, hremove, rfl, rfl⟩ := hturn
      have hremoved := hsound'.removeVersion hremove
      rw [hslice, List.eraseIdx_append_of_length_le (Nat.le_refl _), Nat.sub_self,
        List.eraseIdx_zero, List.tail_cons, List.append_nil] at hremoved
      exact ⟨added, hadded, hremoved⟩
  · next hstopped =>
      rw [if_neg hstopped] at hreduced
      -- the reduction adds versions that end where the version does
      obtain ⟨further, hfurther, rfl, -⟩ := hreduced
      obtain ⟨rfl, rfl⟩ := pure_eq_some_iff.mp hturn
      refine ⟨added ++ further, fun position hposition => ?_, by rwa [← List.append_assoc]⟩
      rcases List.mem_append.mp hposition with hmem | hmem
      · exact hadded position hmem
      · exact hfurther position hmem

/-- `parser__do_potential_reductions` only adds versions that end where the version does. -/
theorem TSParser.Sound.doPotentialReductions {done : Bool} (h : parser.Sound task since positions)
    (hversion : positions[version]? = some (some q))
    (hrun : parserDoPotentialReductions language fuel version parser = some (done, parser')) :
    ∃ added, (∀ position ∈ added, position = some q) ∧
      parser'.Sound task since (positions ++ added) := by
  rw [parserDoPotentialReductions, onStack_bind_eq_some_iff (reads_topState _)] at hrun
  obtain ⟨state, -, hrun⟩ := hrun
  rw [onStack_bind_eq_some_iff reads_versionCount] at hrun
  obtain ⟨previousVersionCount, hcount, hrun⟩ := hrun
  obtain rfl := h.stack.versionCount hcount
  simp only [bind_eq_some_iff] at hrun
  obtain ⟨didReduce, reduced, htry, hrun⟩ := hrun
  obtain ⟨added, hadded, hreduced⟩ := h.tryReductions hversion htry
  split at hrun
  · -- no token can be shifted: the first reduction takes the place of the version
    simp only [bind_eq_some_iff, pure_eq_some_iff] at hrun
    obtain ⟨_, _, hrenumber, rfl, rfl⟩ := hrun
    obtain ⟨stack, hrenumbering, rfl⟩ := onStack_eq_some_iff.mp hrenumber
    obtain ⟨-, p, hp, hrenumbered⟩ := tsStackRenumberVersion_stands hreduced.stack hrenumbering
    rw [List.getElem?_append_right (Nat.le_refl _), Nat.sub_self] at hp
    obtain rfl := hadded p (List.mem_of_getElem? hp)
    have hlength : (positions.set version (some q)).length = positions.length := List.length_set
    rw [List.set_append_left _ _ (List.getElem?_eq_some_iff.mp hversion).1,
      set_position_self hversion, List.eraseIdx_append_of_length_le (Nat.le_refl _), Nat.sub_self,
      List.eraseIdx_zero] at hrenumbered
    exact ⟨added.tail, fun position hposition => hadded position (List.mem_of_mem_tail hposition),
      hreduced.withStack hrenumbered⟩
  · obtain ⟨rfl, rfl⟩ := pure_eq_some_iff.mp hrun
    exact ⟨added, hadded, hreduced⟩

/-! ## Skipping what is in front -/

/-- The pass of `parser__skip_preceding_trees` over the slices. The slices of a version come one
behind the other, and the first of them is taken. -/
theorem TSParser.Sound.skipSlices {slices : List StackSlice} {previousVersion previous : Option ℕ}
    {added : List (Option Length)} (h : parser.Sound task since (positions ++ added))
    (hsorted : slices.Pairwise fun slice slice' => slice.version ≤ slice'.version)
    (hslices : ∀ slice ∈ slices, positions.length ≤ slice.version ∧
      (∀ version, previousVersion = some version → version ≤ slice.version) ∧
      (previousVersion ≠ some slice.version → ∃ p, (positions ++ added)[slice.version]? =
        some (some p) ∧ task.LeadAmong since p q slice.trees))
    (hrun : forEach parserSkipSlice slices previousVersion parser = some (previous, parser')) :
    ∃ added', parser'.Sound task since (positions ++ added') := by
  induction slices generalizing previousVersion parser added with
  | nil =>
      rw [forEach, pure_eq_some_iff] at hrun
      exact ⟨added, hrun.2 ▸ h⟩
  | cons slice rest ih =>
      obtain ⟨hfirst, hsorted⟩ := List.pairwise_cons.mp hsorted
      obtain ⟨hle, hprevious, hslice⟩ := hslices slice List.mem_cons_self
      rw [forEach, bind_eq_some_iff] at hrun
      obtain ⟨version', next, hturn, hrun⟩ := hrun
      rw [parserSkipSlice] at hturn
      split at hturn
      · -- another slice of the same version
        obtain ⟨rfl, rfl⟩ := pure_eq_some_iff.mp hturn
        exact ih h hsorted (fun other hother => hslices other (List.mem_cons_of_mem _ hother)) hrun
      · next hnew =>
          -- the trees of the slice become an error, which leads its version back to the end
          obtain ⟨p, hp, htrees⟩ := hslice hnew
          rw [bind_eq_some_iff] at hturn
          obtain ⟨address, allocated, hallocate, hturn⟩ := hturn
          obtain ⟨rfl, rfl⟩ := parserAllocate_eq_some_iff.mp hallocate
          rw [onStack_bind_eq_some_iff (reads_topState _)] at hturn
          obtain ⟨state, -, hturn⟩ := hturn
          rw [bind_eq_some_iff] at hturn
          obtain ⟨_, pushed, hpush, hturn⟩ := hturn
          obtain ⟨rfl, rfl⟩ := pure_eq_some_iff.mp hturn
          have hpushed := h.allocate.push hp
            (leads_setExtra ((htrees.mono h.since_le).makeErrorNode task.short)) hpush
          rw [List.set_append_right _ _ hle] at hpushed
          refine ih (hpushed.earlier (Nat.le_succ_of_le h.since_le)) hsorted
            (fun other hother => ?_) hrun
          obtain ⟨hleOther, -, hother'⟩ := hslices other (List.mem_cons_of_mem _ hother)
          refine ⟨hleOther, fun version hversion => ?_, fun hne => ?_⟩
          · obtain rfl := Option.some.inj hversion
            exact hfirst other hother
          · have hne' : slice.version ≠ other.version := fun heq => hne (heq ▸ rfl)
            obtain ⟨p', hp', htrees'⟩ := hother' fun hprevious' =>
              hne' (Nat.le_antisymm (hfirst other hother) (hprevious other.version hprevious'))
            refine ⟨p', ?_, htrees'⟩
            rw [← List.set_append_right _ _ hle, List.getElem?_set_ne hne', hp']

/-- `parser__skip_preceding_trees` only adds versions. -/
theorem TSParser.Sound.skipPrecedingTrees {lookaheadSymbol : UInt16} {skipped : Bool}
    (h : parser.Sound task since positions) (hversion : positions[version]? = some (some q))
    (hrun : parserSkipPrecedingTrees language fuel version lookaheadSymbol parser =
      some (skipped, parser')) :
    ∃ added, parser'.Sound task since (positions ++ added) := by
  rw [parserSkipPrecedingTrees, bind_eq_some_iff] at hrun
  obtain ⟨⟨slices, _⟩, iterated, hiterate, hrun⟩ := hrun
  obtain ⟨stack, hiterating, rfl⟩ := onStack_eq_some_iff.mp hiterate
  obtain ⟨-, added, hstands, hslices⟩ :=
    stackIter_stands h.stack (callbackKeeps_trivial _) hversion trivial hiterating
  rw [bind_eq_some_iff] at hrun
  obtain ⟨previous, last, hpass, hrun⟩ := hrun
  obtain ⟨rfl, rfl⟩ := pure_eq_some_iff.mp hrun
  obtain ⟨added', hsound⟩ := (h.now.withStack hstands).skipSlices hslices.sorted
    (fun slice hslice => by
    obtain ⟨hle, p, own, hp, -, hown, hbuilt⟩ := hslices.spans slice hslice
    exact ⟨hle, fun version hnone => absurd hnone (Option.some_ne_none version).symm,
      fun _ => ⟨p, hp, own, hown, hbuilt⟩⟩) hpass
  exact ⟨added', hsound.earlier h.since_le⟩

/-! ## Handling errors -/

/-- The loop of `parser__handle_error` over the versions that reductions may start from. -/
theorem TSParser.Sound.reduceAll {result : PUnit} (h : parser.Sound task since positions)
    (hversion : positions[version]? = some (some q))
    (hrun : parserReduceAll language fuel version positions.length parser =
      some (result, parser')) :
    ∃ added, (∀ position ∈ added, position = some q) ∧
      parser'.Sound task since (positions ++ added) := by
  refine @Triple.loop _ _ _ (fun _ parser' => ∃ added, (∀ position ∈ added, position = some q) ∧
    parser'.Sound task since (positions ++ added)) _
      (fun v parser' => (v = version ∨ positions.length ≤ v) ∧ ∃ added,
      (∀ position ∈ added, position = some q) ∧
      parser'.Sound task since (positions ++ added)) ?_ fuel
    version parser result parser' ⟨Or.inl rfl, [], fun _ hposition =>
      absurd hposition List.not_mem_nil, by
      rwa [List.append_nil]⟩ hrun
  rintro v middle turn next ⟨hv, added, hadded, hsound⟩ hturn
  rw [onStack_bind_eq_some_iff reads_versionCount] at hturn
  obtain ⟨versionCount, hcount, hturn⟩ := hturn
  obtain rfl := hsound.stack.versionCount hcount
  split at hturn
  · next hlt =>
      -- the version of before and all that have been added end at the same position
      have hat : (positions ++ added)[v]? = some (some q) := by
        rcases hv with rfl | hle
        · rw [List.getElem?_append_left (List.getElem?_eq_some_iff.mp hversion).1, hversion]
        · rw [List.length_append] at hlt
          rw [List.getElem?_append_right hle, List.getElem?_eq_getElem (by omega),
            hadded _ (List.getElem_mem _)]
      rw [bind_eq_some_iff] at hturn
      obtain ⟨done, last, hreduce, hturn⟩ := hturn
      obtain ⟨rfl, rfl⟩ := pure_eq_some_iff.mp hturn
      obtain ⟨further, hfurther, hlast⟩ := hsound.doPotentialReductions hat hreduce
      refine ⟨?_, added ++ further, fun position hposition => ?_, by rwa [← List.append_assoc]⟩
      · split
        · split
          · exact Or.inr (Nat.le_refl _)
          · next hne => exact Or.inr (Nat.le_succ_of_le (hv.resolve_left hne))
        · exact hv
      · rcases List.mem_append.mp hposition with hmem | hmem
        · exact hadded position hmem
        · exact hfurther position hmem
  · obtain ⟨rfl, rfl⟩ := pure_eq_some_iff.mp hturn
    exact ⟨added, hadded, hsound⟩

/-- The loop at the end of `parser__handle_error` leaves the old versions. -/
theorem TSParser.Sound.mergeErrors {added : List (Option Length)} {result : PUnit}
    (h : parser.Sound task since (positions ++ added))
    (hadded : ∀ position ∈ added, position = some q)
    (hversion : positions[version]? = some (some q))
    (hrun : parserMergeErrors fuel version positions.length parser = some (result, parser')) :
    parser'.Sound task since positions := by
  refine @Triple.loop _ _ _ (fun _ parser' => parser'.Sound task since positions) _
    (fun _ parser' =>
      ∃ added, (∀ position ∈ added, position = some q) ∧
        parser'.Sound task since (positions ++ added)) ?_ fuel ()
    parser result parser' ⟨added, hadded, h⟩ hrun
  rintro _ middle turn next ⟨added, hadded, hsound⟩ hturn
  rw [onStack_bind_eq_some_iff reads_versionCount] at hturn
  obtain ⟨versionCount, hcount, hturn⟩ := hturn
  obtain rfl := hsound.stack.versionCount hcount
  split at hturn
  · cases added with
    | nil => next hlt => exact absurd hlt (by simp)
    | cons position rest =>
        obtain rfl := hadded position List.mem_cons_self
        -- the first of the new versions is merged into the old one, so there is one fewer
        have hnew : (positions ++ some q :: rest)[positions.length]? = some (some q) := by
          rw [List.getElem?_append_right (Nat.le_refl _), Nat.sub_self, List.getElem?_cons_zero]
        have hold : (positions ++ some q :: rest)[version]? = some (some q) := by
          rw [List.getElem?_append_left (List.getElem?_eq_some_iff.mp hversion).1, hversion]
        rw [bind_eq_some_iff] at hturn
        obtain ⟨_, pushed, hpush, hturn⟩ := hturn
        have hpushed := hsound.pushError hnew hpush
        rw [bind_eq_some_iff] at hturn
        obtain ⟨merged, last, hmerge, hturn⟩ := hturn
        obtain ⟨stack, hmerging, rfl⟩ := onStack_eq_some_iff.mp hmerge
        have hmerged := tsStackMerge_stands hpushed.stack hold hnew hmerging
        cases merged with
        | false => exact absurd hturn (by simp only [Bool.false_eq_true, if_false, trap_eq_some_iff,
          not_false_eq_true])
        | true =>
            obtain ⟨rfl, rfl⟩ := pure_eq_some_iff.mp hturn
            obtain ⟨-, hstands⟩ := hmerged
            rw [List.eraseIdx_append_of_length_le (Nat.le_refl _), Nat.sub_self, List.eraseIdx_zero,
              List.tail_cons] at hstands
            exact ⟨rest, fun position hposition =>
              hadded position (List.mem_cons_of_mem _ hposition), hpushed.withStack hstands⟩
  · next hlt =>
      -- no new versions are left
      obtain ⟨rfl, rfl⟩ := pure_eq_some_iff.mp hturn
      rw [List.length_append, gt_iff_lt, Nat.lt_add_right_iff_pos, Nat.not_lt, Nat.le_zero,
        List.length_eq_zero_iff] at hlt
      rwa [hlt, List.append_nil] at hsound

/-- **`parser__handle_error`** only adds versions. -/
theorem TSParser.Sound.handleError {lookaheadSymbol : UInt16} {result : PUnit}
    (h : parser.Sound task since positions) (hversion : positions[version]? = some (some q))
    (hrun : parserHandleError language fuel version lookaheadSymbol parser =
      some (result, parser')) :
    ∃ added, parser'.Sound task since (positions ++ added) := by
  rw [parserHandleError, onStack_bind_eq_some_iff (reads_errorStatus _)] at hrun
  obtain ⟨errorStatus, -, hrun⟩ := hrun
  rw [bind_eq_some_iff] at hrun
  obtain ⟨better, compared, hbetter, hrun⟩ := hrun
  have hcompared := (h.betterVersionExists hbetter).1
  cases better with
  | true => exact ⟨[], by rw [List.append_nil]; exact (hcompared.halt hrun).1⟩
  | false =>
      simp only [Bool.false_eq_true, if_false] at hrun
      rw [bind_eq_some_iff] at hrun
      -- versions for what is skipped come first, then those of reductions
      obtain ⟨skipped, skipping, hskip, hrun⟩ := hrun
      obtain ⟨added, hskipped⟩ := hcompared.skipPrecedingTrees hversion hskip
      have hversion' : (positions ++ added)[version]? = some (some q) := by
        rw [List.getElem?_append_left (List.getElem?_eq_some_iff.mp hversion).1, hversion]
      rw [onStack_bind_eq_some_iff reads_versionCount] at hrun
      obtain ⟨previousVersionCount, hcount, hrun⟩ := hrun
      obtain rfl := hskipped.stack.versionCount hcount
      simp only [bind_eq_some_iff] at hrun
      obtain ⟨_, reduced, hreduce, _, pushed, hpush, hmerge⟩ := hrun
      obtain ⟨further, hfurther, hreduced⟩ := hskipped.reduceAll hversion' hreduce
      have hold : (positions ++ added ++ further)[version]? = some (some q) := by
        rw [List.getElem?_append_left (List.getElem?_eq_some_iff.mp hversion').1, hversion']
      exact ⟨added, (hreduced.pushError hold hpush).mergeErrors hfurther hversion' hmerge⟩

/-! ## Recovering -/

/-- A copy of a version that is given up is given up. -/
theorem TSParser.Sound.copyHalted {result : ℕ} (h : parser.Sound task since positions)
    (hhalted : parser.HaltedAt version)
    (hrun : onStack (tsStackCopyVersion version) parser = some (result, parser')) :
    (∃ positions', parser'.Sound task since positions') ∧ parser'.HaltedAt result ∧
    parser'.HaltedAt version ∧ version < result := by
  obtain ⟨stack, hcopy, rfl⟩ := onStack_eq_some_iff.mp hrun
  obtain ⟨rfl, ⟨head, hhead, hheads⟩, p, -, hstands⟩ := tsStackCopyVersion_stands h.stack hcopy
  obtain ⟨head', hhead', hflag⟩ := hhalted
  rw [hhead, Option.some.injEq] at hhead'
  subst hhead'
  have hlt := (List.getElem?_eq_some_iff.mp hhead).1
  refine ⟨⟨_, h.withStack hstands⟩, ⟨head, ?_, hflag⟩, ⟨head, ?_, hflag⟩, h.stack.length_eq ▸ hlt⟩
  · show stack.heads[positions.length]? = some head
    rw [hheads, h.stack.length_eq, List.getElem?_concat_length]
  · show stack.heads[version]? = some head
    rw [hheads, List.getElem?_append_left hlt, hhead]

/-- A version stays given up when a later one is removed. -/
theorem TSParser.HaltedAt.removeVersion {version' : ℕ} {result : PUnit}
    (h : parser.HaltedAt version) (hlt : version < version')
    (hrun : onStack (tsStackRemoveVersion version') parser = some (result, parser')) :
    parser'.HaltedAt version := by
  obtain ⟨stack, hremove, rfl⟩ := onStack_eq_some_iff.mp hrun
  rw [tsStackRemoveVersion, stackHead_bind_eq_some_iff] at hremove
  obtain ⟨-, -, hremove⟩ := hremove
  obtain rfl := modify_eq_some_iff.mp hremove
  obtain ⟨head, hhead, hflag⟩ := h
  exact ⟨head, (List.getElem?_eraseIdx_of_lt hlt).trans hhead, hflag⟩

/-- **`parser__recover`** keeps the text, at its end as well, where the version is
accepted first. -/
theorem TSParser.Sound.recover {state : UInt16} {lookahead : SyntaxTree} {result : PUnit}
    (h : parser.Sound task since positions) (hversion : positions[version]? = some (some p))
    (htree : task.Leads since p q lookahead)
    (hrun : parserRecover language fuel version state lookahead parser = some (result, parser')) :
    ∃ positions', parser'.Sound task since positions' := by
  rw [parserRecover, bind_eq_some_iff] at hrun
  obtain ⟨lookahead', ended, heof, hrun⟩ := hrun
  simp only [bind_eq_some_iff] at hrun
  obtain ⟨newVersion, copied, hcopy, shifted, middle, hshift, status, _, hstatus, better, compared,
    hbetter, _, kept, hremove, _, last, hlast, hrun⟩ := hrun
  obtain rfl := eq_of_reads (reads_errorStatus _) hstatus
  obtain ⟨-, rfl⟩ := pure_eq_some_iff.mp hrun
  rw [parserRecoverEof] at heof
  split at heof
  · -- the end of the text: the version is accepted, and what follows happens to versions given up
    rw [bind_eq_some_iff] at heof
    obtain ⟨address, allocated, hallocate, heof⟩ := heof
    obtain ⟨rfl, rfl⟩ := parserAllocate_eq_some_iff.mp hallocate
    rw [bind_eq_some_iff] at heof
    obtain ⟨_, pushed, hpush, haccept⟩ := heof
    have herror : task.Leads (parser.nextAddress + 1) p p
      (tsTreeMakeErrorNode parser.nextAddress []) :=
      (leadAmong_nil_iff.mpr ⟨rfl, h.stack.position hversion⟩).makeErrorNode task.short
    have hpushed := h.allocate.push hversion herror hpush
    obtain ⟨⟨positions', hended⟩, hhalted, hlookahead⟩ :=
      hpushed.accept (getElem?_set_position hversion)
      (htree.mono (Nat.le_succ_of_le h.since_le)) haccept
    obtain ⟨⟨_, hcopied⟩, hnew, hold, hlt⟩ := hended.now.copyHalted hhalted hcopy
    obtain ⟨⟨_, hshifted⟩, hlookahead', hflags⟩ := hcopied.shiftHalted hnew hlookahead hshift
    obtain ⟨hcompared, hflags'⟩ := hshifted.now.betterVersionExists hbetter
    obtain ⟨⟨_, hkept⟩, hhalted'⟩ : (∃ positions', kept.Sound task middle.nextAddress positions') ∧
        kept.HaltedAt version := by
      unfold guarded at hremove
      split at hremove
      · exact ⟨⟨_, hcompared.removeVersion hremove⟩,
          (hflags' _ (hflags _ hold)).removeVersion hlt hremove⟩
      · obtain ⟨-, rfl⟩ := pure_eq_some_iff.mp hremove
        exact ⟨⟨_, hcompared⟩, hflags' _ (hflags _ hold)⟩
    obtain ⟨⟨positions', hdone⟩, -, -⟩ := hkept.shiftHalted hhalted' hlookahead' hlast
    have hle := Nat.le_trans (Nat.le_trans hended.since_le hshifted.since_le) hdone.since_le
    exact ⟨positions', hdone.now.earlier (Nat.le_trans (Nat.le_succ_of_le h.since_le) hle)⟩
  · -- a copy of the version goes on with the lookahead, and the version skips it
    obtain ⟨rfl, rfl⟩ := pure_eq_some_iff.mp heof
    obtain ⟨rfl, hcopied⟩ := h.copyVersion hversion hcopy
    obtain ⟨hshifted, hlookahead⟩ := hcopied.shift List.getElem?_concat_length htree hshift
    rw [List.set_append_right _ _ (Nat.le_refl _), Nat.sub_self, List.set_cons_zero] at hshifted
    have hcompared := (hshifted.now.betterVersionExists hbetter).1
    obtain ⟨added, hkept⟩ : ∃ added, kept.Sound task middle.nextAddress (positions ++ added) := by
      unfold guarded at hremove
      split at hremove
      · have hremoved := hcompared.removeVersion hremove
        rw [List.eraseIdx_append_of_length_le (Nat.le_refl _), Nat.sub_self, List.eraseIdx_zero,
          List.tail_cons] at hremoved
        exact ⟨[], hremoved⟩
      · obtain ⟨-, rfl⟩ := pure_eq_some_iff.mp hremove
        exact ⟨[some q], hcompared⟩
    have hversion' : (positions ++ added)[version]? = some (some p) := by
      rw [List.getElem?_append_left (List.getElem?_eq_some_iff.mp hversion).1, hversion]
    exact ⟨_, (hkept.shift hversion' hlookahead hlast).1.earlier hshifted.since_le⟩

end TreeSitterTextStorage
