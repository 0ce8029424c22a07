import TreeSitterTextStorage.Runtime.ParserErrors

/-! # Whole parses keep the text

A version advances by the actions of the tables until it shifts a lookahead; versions are advanced
in turn and condensed until none is left. What is finished then spans the text, whatever the tables
and the lexing function say. -/

namespace TreeSitterTextStorage

open Program RoseTree

variable {α π : Type} {language : TSLanguage} {input : TSInput π}
  {task : ParseTask α language input}
  {since next : ℕ} {positions : List (Option Length)} {parser parser' : TSParser π} {p q : Length}
  {version fuel : ℕ} {lookahead : SyntaxTree} {reusable : ReusableNode} {state : UInt16}
  {entry : TableEntry}

/-! ## Advancing a version -/

/-- Breaking the lookahead down to a leaf. -/
theorem ParseTask.Looks.breakdownToLeaf {result : SyntaxTree × ReusableNode}
    (h : task.Looks next p lookahead reusable)
    (hrun : parserBreakdownToLeaf fuel lookahead reusable parser = some (result, parser')) :
    parser = parser' ∧ task.Looks next p result.1 result.2 := by
  refine @Triple.loop _ _ _ (fun result state => parser = state ∧
    task.Looks next p result.1 result.2) _ (fun vars state => parser = state ∧
    task.Looks next p vars.1 vars.2) ?_ fuel (lookahead, reusable) parser result parser' ⟨rfl, h⟩
    hrun
  rintro ⟨tree, walk⟩ middle turn last ⟨rfl, hlooks⟩ hturn
  split at hturn
  · next hinner =>
      -- a tree with children has a first child at the same place, unless the walk ends
      have hne := List.ne_nil_of_length_pos hinner
      cases hnext : reusableNodeBreakdown walk with
      | none =>
          obtain ⟨cursor, hcursor, htree⟩ := hlooks.inner hne
          simp only [hnext, Option.getD_none] at hturn
          rw [hcursor] at hturn
          obtain ⟨rfl, rfl⟩ := pure_eq_some_iff.mp hturn
          exact ⟨rfl, htree ▸ hlooks⟩
      | some walk' =>
          simp only [hnext, Option.getD_some] at hturn
          cases hcursor : walk'.cursor with
          | none =>
              rw [hcursor] at hturn
              exact absurd hturn (by simp only [trap_eq_some_iff, not_false_eq_true])
          | some cursor =>
              rw [hcursor] at hturn
              obtain ⟨rfl, rfl⟩ := pure_eq_some_iff.mp hturn
              exact ⟨rfl, hlooks.breakdown hne hnext hcursor⟩
  · obtain ⟨rfl, rfl⟩ := pure_eq_some_iff.mp hturn
    exact ⟨rfl, hlooks⟩

/-- The lookahead that the shift action has broken down. -/
theorem TSParser.Sound.prepareShift {result : SyntaxTree × ReusableNode}
    (h : parser.Sound task since positions) (hversion : positions[version]? = some (some p))
    (hlooks : task.Looks since p lookahead reusable)
    (hrun : parserPrepareShift language input fuel version state entry lookahead reusable parser =
    some (result, parser')) :
    parser'.Sound task since positions ∧ task.Looks parser'.nextAddress p result.1 result.2 := by
  rw [parserPrepareShift] at hrun
  split at hrun
  · next hinner =>
      rw [bind_eq_some_iff] at hrun
      obtain ⟨⟨brokenDown, lookahead', reusable'⟩, middle, hbreak, hrun⟩ := hrun
      obtain ⟨rfl, hbroken⟩ := hlooks.breakdownLookahead (List.ne_nil_of_length_pos hinner) hbreak
      simp only at hbroken hrun
      split at hrun
      · simp only [bind_eq_some_iff, pure_eq_some_iff, ofOption_eq_some_iff] at hrun
        obtain ⟨popped, _, ⟨hpop, rfl⟩, found, _, hfind, rfl, rfl⟩ := hrun
        exact h.getLookahead hversion (hbroken.placed.pop hpop) hfind
      · obtain ⟨rfl, rfl⟩ := pure_eq_some_iff.mp hrun
        exact ⟨h, hbroken.mono h.since_le⟩
  · obtain ⟨rfl, rfl⟩ := pure_eq_some_iff.mp hrun
    exact ⟨h, hlooks.mono h.since_le⟩

/-- **The shift action** of `parser__advance`. -/
theorem TSParser.Sound.shiftAction {action : TSParseAction} {result : ReusableNode}
    (h : parser.Sound task since positions) (hversion : positions[version]? = some (some p))
    (hlooks : task.Looks since p lookahead reusable)
    (hrun : parserShiftAction language input fuel version state entry action lookahead reusable
    parser = some (result, parser')) :
    (∃ positions', parser'.Sound task since positions') ∧ result.PlacedIn task.old := by
  simp only [parserShiftAction, bind_eq_some_iff] at hrun
  obtain ⟨⟨lookahead', reusable'⟩, middle, hprepare, shifted, last, hshift, hrun⟩ := hrun
  obtain ⟨hsound, hlooks'⟩ := h.prepareShift hversion hlooks hprepare
  obtain ⟨q, hleads⟩ := hlooks'.leads
  obtain ⟨rfl, hplaced⟩ := hlooks'.placed.passReused hrun
  exact ⟨⟨_, (hsound.now.shift hversion hleads hshift).1.earlier hsound.since_le⟩, hplaced⟩

/-- What is known behind the actions of a table entry. -/
def ParseTask.Performed (task : ParseTask α language input) (since : ℕ) (p : Length)
    (positions : List (Option Length)) (parser : TSParser π) : Option ℕ ⊕ ReusableNode → Prop
  | .inl last => ∃ added, parser.Sound task since (positions ++ added) ∧
      ∀ v, last = some v → positions.length ≤ v ∧ (positions ++ added)[v]? = some (some p)
  | .inr reusable => (∃ positions', parser.Sound task since positions') ∧ reusable.PlacedIn task.old

/-- **The actions of a table entry** keep the text: either the version has advanced, or all that
they did is to add versions, and the last reduction has left one where the version ends. -/
theorem TSParser.Sound.perform {actions : List TSParseAction} {stopped : Bool} {last : Option ℕ}
    {added : List (Option Length)} {result : Option ℕ ⊕ ReusableNode}
    (h : parser.Sound task since (positions ++ added))
    (hversion : positions[version]? = some (some p))
    (hlooks : task.Looks since p lookahead reusable)
    (hlast : ∀ v, last = some v → positions.length ≤ v ∧ (positions ++ added)[v]? = some (some p))
    (hrun : parserPerform language input fuel version state entry lookahead reusable actions stopped
    last parser = some (result, parser')) :
    task.Performed since p positions parser' result := by
  have hat : ∀ added : List (Option Length), (positions ++ added)[version]? = some (some p) :=
    fun added => by
    rw [List.getElem?_append_left (List.getElem?_eq_some_iff.mp hversion).1, hversion]
  -- over the actions: what reductions have added stands behind the versions of before
  induction actions generalizing parser added stopped last with
  | nil =>
      rw [parserPerform, pure_eq_some_iff] at hrun
      obtain ⟨rfl, rfl⟩ := hrun
      exact ⟨added, h, hlast⟩
  | cons action rest ih =>
      rw [parserPerform] at hrun
      cases htype : action.type with
      | shift =>
          simp only [htype, bind_eq_some_iff, pure_eq_some_iff] at hrun
          obtain ⟨reusable', _, hshift, rfl, rfl⟩ := hrun
          exact h.shiftAction (hat added) hlooks hshift
      | reduce =>
          simp only [htype] at hrun
          split at hrun
          · exact ih h hlast hrun
          · rw [bind_eq_some_iff] at hrun
            obtain ⟨reduction, reduced, hreduce, hrun⟩ := hrun
            obtain ⟨positions', hreduced, hslices⟩ := h.reduce (hat added) hreduce
            rw [ParseTask.Reduced] at hslices
            cases hfound : reduction.slices with
            | nil =>
                rw [hfound] at hrun
                exact absurd hrun (by simp only [trap_eq_some_iff, not_false_eq_true])
            | cons slice others =>
                simp only [hfound] at hrun hslices
                split at hrun
                · next hstopped =>
                    rw [if_pos hstopped] at hslices
                    -- stopped at an error: the slice is repaired, or its version is gone
                    obtain ⟨slice', p', hsingle, hslice, rfl, htrees⟩ := hslices
                    obtain ⟨rfl, -⟩ := List.cons.inj hsingle
                    rw [bind_eq_some_iff] at hrun
                    obtain ⟨repaired, middle, hrepair, hrun⟩ := hrun
                    obtain ⟨further, hmiddle, hrepaired⟩ := hreduced.now.repairError hslice htrees
                      hrepair
                    rw [List.append_assoc] at hmiddle
                    refine ih (hmiddle.earlier hreduced.since_le) (fun v hv => ?_) hrun
                    split at hv
                    · next hdone =>
                        obtain rfl := Option.some.inj hv
                        refine ⟨?_, ?_⟩
                        · rw [hslice, List.length_append]
                          exact Nat.le_add_right _ _
                        · rw [← List.append_assoc, hslice,
                            List.getElem?_append_right (Nat.le_refl _), Nat.sub_self,
                            hrepaired hdone]
                    · obtain ⟨hle, hv⟩ := hlast v hv
                      refine ⟨hle, ?_⟩
                      rw [← List.append_assoc, List.getElem?_append_left
                        (List.getElem?_eq_some_iff.mp hv).1, hv]
                · next hstopped =>
                    rw [if_neg hstopped] at hslices
                    -- the version of the first slice is the last reduction so far
                    obtain ⟨further, hfurther, rfl, hfirst⟩ := hslices
                    obtain ⟨hslice, hne⟩ := hfirst slice rfl
                    rw [List.append_assoc] at hreduced
                    refine ih hreduced (fun v hv => ?_) hrun
                    obtain rfl := Option.some.inj hv
                    refine ⟨?_, ?_⟩
                    · rw [hslice, List.length_append]
                      exact Nat.le_add_right _ _
                    · obtain ⟨position, others', rfl⟩ := List.exists_cons_of_ne_nil hne
                      rw [← List.append_assoc, hslice, List.getElem?_append_right (Nat.le_refl _),
                        Nat.sub_self, List.getElem?_cons_zero, hfurther position List.mem_cons_self]
      | accept =>
          simp only [htype] at hrun
          rw [onStack_bind_eq_some_iff (reads_errorStatus _)] at hrun
          obtain ⟨errorStatus, -, hrun⟩ := hrun
          split at hrun
          · -- a version with errors does not accept
            exact ih h hlast hrun
          · simp only [bind_eq_some_iff, pure_eq_some_iff] at hrun
            obtain ⟨_, _, haccept, rfl, rfl⟩ := hrun
            obtain ⟨q, hleads⟩ := hlooks.leads
            exact ⟨(h.accept (hat added) hleads haccept).1, hlooks.placed⟩
      | recover =>
          simp only [htype, bind_eq_some_iff, pure_eq_some_iff] at hrun
          obtain ⟨⟨lookahead', reusable'⟩, middle, hbreak, _, _, hrecover, _, _, hpass, rfl, rfl⟩ :=
            hrun
          -- only a leaf is skipped
          obtain ⟨rfl, hlooks'⟩ := hlooks.breakdownToLeaf hbreak
          obtain ⟨q, hleads⟩ := hlooks'.leads
          obtain ⟨rfl, hplaced⟩ := hlooks'.placed.passReused hpass
          exact ⟨h.recover (hat added) hleads hrecover, hplaced⟩

/-- A version that is advanced, with its lookahead. -/
def ParseTask.Advancing (task : ParseTask α language input) (since version : ℕ) (p : Length)
    (parser : TSParser π) (vars : SyntaxTree × ReusableNode × Bool) : Prop :=
  ∃ positions, parser.Sound task since positions ∧ positions[version]? = some (some p) ∧
    task.Looks parser.nextAddress p vars.1 vars.2.1

/-- What a turn of the loop of `parser__advance` leaves. -/
def ParseTask.Turned (task : ParseTask α language input) (since version : ℕ) (p : Length)
    (parser : TSParser π) :
    (SyntaxTree × ReusableNode × Bool) ⊕ ReusableNode → Prop
  | .inl vars => task.Advancing since version p parser vars
  | .inr reusable => (∃ positions, parser.Sound task since positions) ∧ reusable.PlacedIn task.old

/-- **One turn of the loop of `parser__advance`** leaves the version where it ends, or it has
advanced. -/
theorem ParseTask.Advancing.turn {vars : SyntaxTree × ReusableNode × Bool}
    {result : (SyntaxTree × ReusableNode × Bool) ⊕ ReusableNode}
    (h : task.Advancing since version p parser vars)
    (hrun : parserAdvanceTurn language input fuel version vars parser = some (result, parser')) :
    task.Turned since version p parser' result := by
  obtain ⟨lookahead, reusable, validated⟩ := vars
  obtain ⟨positions, hsound, hversion, hlooks⟩ := h
  simp only at hlooks
  rw [parserAdvanceTurn] at hrun
  rw [onStack_bind_eq_some_iff (reads_topState _)] at hrun
  obtain ⟨state, -, hrun⟩ := hrun
  rw [bind_eq_some_iff] at hrun
  obtain ⟨entry, _, hentry, hrun⟩ := hrun
  obtain ⟨-, rfl⟩ := ofOption_eq_some_iff.mp hentry
  split at hrun
  · -- the lookahead cannot be used in this state
    simp only [bind_eq_some_iff, pure_eq_some_iff, ofOption_eq_some_iff] at hrun
    obtain ⟨passed, _, ⟨hpass, rfl⟩, found, _, hfind, rfl, rfl⟩ := hrun
    have hplaced : passed.PlacedIn task.old := by
      split at hpass
      · exact hlooks.placed.popLeaf hpass
      · exact Option.some.inj hpass ▸ hlooks.placed
    obtain ⟨hfound, hlooks'⟩ := hsound.getLookahead hversion hplaced hfind
    exact ⟨positions, hfound, hversion, hlooks'⟩
  · rw [bind_eq_some_iff] at hrun
    obtain ⟨performed, middle, hperform, hrun⟩ := hrun
    rw [← List.append_nil positions] at hsound
    have hperformed := hsound.now.perform hversion hlooks
      (fun v hnone => absurd hnone (Option.some_ne_none v).symm) hperform
    rcases performed with last | reusable'
    · obtain ⟨added, hadded, hlast⟩ := hperformed
      have hat : (positions ++ added)[version]? = some (some p) := by
        rw [List.getElem?_append_left (List.getElem?_eq_some_iff.mp hversion).1, hversion]
      cases last with
      | some v =>
          -- the version gives way to that of the last reduction
          simp only [bind_eq_some_iff, pure_eq_some_iff] at hrun
          obtain ⟨_, _, hrenumber, rfl, rfl⟩ := hrun
          obtain ⟨stack, hrenumbering, rfl⟩ := onStack_eq_some_iff.mp hrenumber
          obtain ⟨hle, hv⟩ := hlast v rfl
          obtain ⟨hlt, p', hp', hrenumbered⟩ := tsStackRenumberVersion_stands hadded.stack
            hrenumbering
          rw [hv, Option.some.injEq] at hp'
          subst hp'
          rw [set_position_self hat] at hrenumbered
          refine ⟨_, (hadded.withStack hrenumbered).earlier hsound.since_le, ?_,
            hlooks.mono hadded.since_le⟩
          rw [List.getElem?_eraseIdx_of_lt hlt, hat]
      | none =>
          rw [bind_eq_some_iff] at hrun
          obtain ⟨brokenDown, broken, hbreak, hrun⟩ := hrun
          have hbroken := hadded.breakdownTopOfStack hat hbreak
          have hlooks' := hlooks.mono hbroken.since_le
          split at hrun
          · obtain ⟨rfl, rfl⟩ := pure_eq_some_iff.mp hrun
            exact ⟨_, hbroken.earlier hsound.since_le, hat, hlooks'⟩
          · split at hrun
            · -- in an error, any lookahead is pushed
              simp only [bind_eq_some_iff, pure_eq_some_iff] at hrun
              obtain ⟨_, _, hpush, rfl, rfl⟩ := hrun
              obtain ⟨q, hleads⟩ := hlooks.leads
              exact ⟨⟨_, (hbroken.push hat hleads hpush).earlier hsound.since_le⟩, hlooks.placed⟩
            · rw [bind_eq_some_iff] at hrun
              obtain ⟨_, handled, hhandle, hrun⟩ := hrun
              obtain ⟨further, hhandled⟩ := hbroken.handleError hat hhandle
              rw [onStack_bind_eq_some_iff (reads_isHalted _)] at hrun
              obtain ⟨isHalted, -, hrun⟩ := hrun
              obtain ⟨rfl, rfl⟩ := pure_eq_some_iff.mp hrun
              cases isHalted with
              | true => exact ⟨⟨_, hhandled.earlier hsound.since_le⟩, hlooks.placed⟩
              | false =>
                  refine ⟨_, hhandled.earlier hsound.since_le, ?_, hlooks.mono hhandled.since_le⟩
                  rw [List.getElem?_append_left (List.getElem?_eq_some_iff.mp hat).1, hat]
    · obtain ⟨rfl, rfl⟩ := pure_eq_some_iff.mp hrun
      obtain ⟨⟨positions', hadvanced⟩, hplaced⟩ := hperformed
      exact ⟨⟨positions', hadvanced.earlier hsound.since_le⟩, hplaced⟩

/-- **`parser__advance`** keeps the text. -/
theorem TSParser.Sound.advance {result : ReusableNode} (h : parser.Sound task since positions)
    (hversion : positions[version]? = some (some p)) (hreusable : reusable.PlacedIn task.old)
    (hrun : parserAdvance language input fuel version reusable parser = some (result, parser')) :
    (∃ positions', parser'.Sound task since positions') ∧ result.PlacedIn task.old := by
  rw [parserAdvance, bind_eq_some_iff] at hrun
  obtain ⟨vars, middle, hfind, hrun⟩ := hrun
  obtain ⟨hsound, hlooks⟩ := h.getLookahead hversion hreusable hfind
  refine @Triple.loop _ _ _ (fun reusable parser' =>
    (∃ positions', parser'.Sound task since positions') ∧ reusable.PlacedIn task.old) _
    (fun vars parser' => task.Advancing since version p parser' vars) ?_ fuel vars middle result
    parser' ⟨positions, hsound, hversion, hlooks⟩ hrun
  intro vars state turn last hadvancing hturn
  have hturned := hadvancing.turn hturn
  cases turn with
  | inl vars => exact hturned
  | inr reusable => exact hturned

/-! ## Condensing the stack -/

/-- The versions in front of a number, and the one with the number, end at positions. -/
def PositionsUpTo (positions : List (Option Length)) (i : ℕ) : Prop :=
  ∀ k ≤ i, ∃ p, positions[k]? = some (some p)

/-- Removing one of these versions. -/
theorem PositionsUpTo.eraseIdx {i j : ℕ} (h : PositionsUpTo positions i) (hle : j ≤ i)
    (hpos : 0 < i) :
    PositionsUpTo (positions.eraseIdx j) (i - 1) := by
  intro k hk
  rw [List.getElem?_eraseIdx]
  split
  · exact h k (by omega)
  · exact h (k + 1) (by omega)

/-- The loop of `parser__condense_stack` over the versions in front of a version. -/
theorem TSParser.Sound.condenseVersion {i : ℕ} {errorStatus : ErrorStatus} {result : ℕ × Bool}
    (h : parser.Sound task since positions) (hpositions : PositionsUpTo positions i)
    (hrun : parserCondenseVersion fuel i errorStatus parser = some (result, parser')) :
    ∃ positions', parser'.Sound task since positions' ∧ PositionsUpTo positions' result.1 := by
  refine @Triple.loop _ _ _ (fun (result : ℕ × Bool) parser' => ∃ positions',
    parser'.Sound task since positions' ∧ PositionsUpTo positions' result.1) _
    (fun (vars : ℕ × ℕ × Bool) parser' => ∃ positions', parser'.Sound task since positions' ∧
    PositionsUpTo positions' vars.1) ?_ fuel (i, 0, false) parser result parser'
    ⟨positions, h, hpositions⟩ hrun
  rintro ⟨i, j, madeChange⟩ middle turn next ⟨positions, hsound, hpositions⟩ hturn
  simp only at hpositions hturn
  split at hturn
  · next hlt =>
      -- both versions have positions, so a merge is one at the same place
      obtain ⟨p, hp⟩ := hpositions j (Nat.le_of_lt hlt)
      obtain ⟨q, hq⟩ := hpositions i (Nat.le_refl i)
      rw [bind_eq_some_iff] at hturn
      obtain ⟨merged, last, hmerge, hturn⟩ := hturn
      obtain ⟨stack, hmerging, rfl⟩ := onStack_eq_some_iff.mp hmerge
      have hmerged := tsStackMerge_stands hsound.stack hp hq hmerging
      have hpos : 0 < i := Nat.lt_of_le_of_lt (Nat.zero_le j) hlt
      cases merged with
      | true =>
          obtain ⟨rfl, rfl⟩ := pure_eq_some_iff.mp hturn
          exact ⟨_, hsound.withStack hmerged.2, hpositions.eraseIdx (Nat.le_refl i) hpos⟩
      | false =>
          obtain rfl : stack = middle.stack := hmerged
          simp only [Bool.false_eq_true, if_false] at hturn
          rw [onStack_bind_eq_some_iff (reads_errorStatus _)] at hturn
          obtain ⟨other, -, hturn⟩ := hturn
          cases hcompare : errorStatusCompare errorStatus other with
          | lt =>
              -- the version in front is worse and is removed
              rw [hcompare] at hturn
              simp only [bind_eq_some_iff, pure_eq_some_iff] at hturn
              obtain ⟨_, _, hremove, rfl, rfl⟩ := hturn
              exact ⟨_, hsound.removeVersion hremove, hpositions.eraseIdx (Nat.le_of_lt hlt) hpos⟩
          | gt =>
              -- the version itself is worse
              rw [hcompare] at hturn
              simp only [bind_eq_some_iff, pure_eq_some_iff] at hturn
              obtain ⟨_, _, hremove, rfl, rfl⟩ := hturn
              exact ⟨_, hsound.removeVersion hremove, hpositions.eraseIdx (Nat.le_refl i) hpos⟩
          | eq =>
              rw [hcompare] at hturn
              obtain ⟨rfl, rfl⟩ := pure_eq_some_iff.mp hturn
              exact ⟨positions, hsound, hpositions⟩
  · obtain ⟨rfl, rfl⟩ := pure_eq_some_iff.mp hturn
    exact ⟨positions, hsound, hpositions⟩

/-- **`parser__condense_stack`** keeps the text: whatever it merges has a position. -/
theorem TSParser.Sound.condenseStack {result : CondenseResult}
    (h : parser.Sound task since positions)
    (hrun : parserCondenseStack fuel parser = some (result, parser')) :
    ∃ positions', parser'.Sound task since positions' := by
  rw [parserCondenseStack, bind_eq_some_iff] at hrun
  obtain ⟨vars, condensed, hloop, hrun⟩ := hrun
  rw [onStack_bind_eq_some_iff reads_versionCount] at hrun
  obtain ⟨versionCount, -, hrun⟩ := hrun
  obtain ⟨-, rfl⟩ := pure_eq_some_iff.mp hrun
  obtain ⟨positions', hsound, -⟩ : ∃ positions', condensed.Sound task since positions' ∧ True := by
    refine @Triple.loop _ _ _ (fun _ condensed => ∃ positions',
      condensed.Sound task since positions' ∧ True) _
      (fun (vars : ℕ × Bool × Bool) condensed => ∃ positions', condensed.Sound task since positions'
      ∧ ∀ k < vars.1, ∃ p, positions'[k]? = some (some p)) ?_ fuel (0, false, false) parser vars
      condensed ⟨positions, h, fun k hk => absurd hk (Nat.not_lt_zero k)⟩ hloop
    rintro ⟨i, madeChange, hasVersionWithoutErrors⟩ middle turn next ⟨positions, hsound, hpositions⟩
      hturn
    simp only at hpositions hturn
    rw [onStack_bind_eq_some_iff reads_versionCount] at hturn
    obtain ⟨versionCount, -, hturn⟩ := hturn
    split at hturn
    · rw [onStack_bind_eq_some_iff (reads_isHalted _)] at hturn
      obtain ⟨isHalted, hhalted, hturn⟩ := hturn
      cases isHalted with
      | true =>
          simp only [if_true, bind_eq_some_iff, pure_eq_some_iff] at hturn
          obtain ⟨_, _, hremove, rfl, rfl⟩ := hturn
          refine ⟨_, hsound.removeVersion hremove, fun k hk => ?_⟩
          obtain ⟨p, hp⟩ := hpositions k hk
          exact ⟨p, (List.getElem?_eraseIdx_of_lt hk).trans hp⟩
      | false =>
          simp only [Bool.false_eq_true, if_false] at hturn
          rw [onStack_bind_eq_some_iff (reads_errorStatus _)] at hturn
          obtain ⟨errorStatus, -, hturn⟩ := hturn
          rw [bind_eq_some_iff] at hturn
          obtain ⟨⟨i', changed⟩, last, hcondense, hturn⟩ := hturn
          obtain ⟨rfl, rfl⟩ := pure_eq_some_iff.mp hturn
          -- the versions in front have been gone through, and this one has not been given up
          have hupTo : PositionsUpTo positions i := by
            intro k hk
            rcases Nat.lt_or_eq_of_le hk with hk | rfl
            · exact hpositions k hk
            · exact hsound.stack.going hhalted
          obtain ⟨positions', hlast, hpositions'⟩ := hsound.condenseVersion hupTo hcondense
          exact ⟨positions', hlast, fun k hk => hpositions' k (Nat.le_of_lt_succ hk)⟩
    · obtain ⟨rfl, rfl⟩ := pure_eq_some_iff.mp hturn
      exact ⟨positions, hsound, trivial⟩
  exact ⟨positions', hsound⟩

/-! ## Parsing -/

/-- The loop of `parser_parse` that advances a version. -/
theorem TSParser.Sound.advanceVersion {lastPosition : ℕ} {result : ℕ × ReusableNode}
    (h : parser.Sound task since positions) (hreusable : reusable.PlacedIn task.old)
    (hrun : parserAdvanceVersion language input fuel version lastPosition reusable parser =
    some (result, parser')) :
    (∃ positions', parser'.Sound task since positions') ∧ result.2.PlacedIn task.old := by
  refine @Triple.loop _ _ _ (fun (result : ℕ × ReusableNode) parser' =>
    (∃ positions', parser'.Sound task since positions') ∧ result.2.PlacedIn task.old) _
    (fun (vars : ℕ × ReusableNode) parser' => (∃ positions', parser'.Sound task since positions') ∧
      vars.2.PlacedIn task.old) ?_ fuel (lastPosition, reusable) parser result parser'
        ⟨⟨positions, h⟩, hreusable⟩ hrun
  rintro vars middle turn next ⟨⟨positions, hsound⟩, hplaced⟩ hturn
  rw [onStack_bind_eq_some_iff (reads_isHalted _)] at hturn
  obtain ⟨isHalted, hhalted, hturn⟩ := hturn
  cases isHalted with
  | true =>
      obtain ⟨rfl, rfl⟩ := pure_eq_some_iff.mp hturn
      exact ⟨⟨positions, hsound⟩, hplaced⟩
  | false =>
      obtain ⟨p, hversion⟩ := hsound.stack.going hhalted
      simp only [Bool.false_eq_true, if_false] at hturn
      rw [onStack_bind_eq_some_iff (reads_topPosition _)] at hturn
      obtain ⟨top, -, hturn⟩ := hturn
      split at hturn
      · obtain ⟨rfl, rfl⟩ := pure_eq_some_iff.mp hturn
        exact ⟨⟨positions, hsound⟩, hplaced⟩
      · rw [bind_eq_some_iff] at hturn
        obtain ⟨reusable', last, hadvance, hturn⟩ := hturn
        obtain ⟨rfl, rfl⟩ := pure_eq_some_iff.mp hturn
        exact hsound.advance hversion hplaced hadvance

/-- The loop of `parser_parse` over the versions. -/
theorem TSParser.Sound.round {position : ℕ} {result : ℕ × ℕ × ReusableNode}
    (h : parser.Sound task since positions) (hreusable : reusable.PlacedIn task.old)
    (hrun : parserRound language input fuel position reusable parser = some (result, parser')) :
    (∃ positions', parser'.Sound task since positions') ∧ result.2.2.PlacedIn task.old := by
  refine @Triple.loop _ _ _ (fun (result : ℕ × ℕ × ReusableNode) parser' =>
    (∃ positions', parser'.Sound task since positions') ∧ result.2.2.PlacedIn task.old) _
    (fun (vars : ℕ × ℕ × ReusableNode) parser' =>
    (∃ positions', parser'.Sound task since positions') ∧ vars.2.2.PlacedIn task.old) ?_ fuel
    (0, position, reusable) parser result parser' ⟨⟨positions, h⟩, hreusable⟩
    hrun
  rintro ⟨version, position, reusable⟩ middle turn next ⟨⟨positions, hsound⟩, hplaced⟩ hturn
  simp only at hturn hplaced
  rw [get_bind] at hturn
  split at hturn
  · rw [bind_eq_some_iff] at hturn
    obtain ⟨⟨position', reusable'⟩, last, hadvance, hturn⟩ := hturn
    obtain ⟨rfl, rfl⟩ := pure_eq_some_iff.mp hturn
    exact hsound.advanceVersion hsound.reusable hadvance
  · obtain ⟨rfl, rfl⟩ := pure_eq_some_iff.mp hturn
    exact ⟨⟨positions, hsound⟩, hplaced⟩

/-- **`parser_parse` is sound**: what a parse returns is a finished tree whose nodes know their
places, whatever the tables and the lexing function say. -/
theorem parserParse_finished {tree : SyntaxTree} {text : List α}
    (hstack : parser.stack.Stands task.metric text parser.nextAddress positions)
    (hbase : task.base ≤ parser.nextAddress)
    (hready : task.ready (tsLexerSetInput parser.lexer, parser.payload))
    (hrun : parserParse language input fuel task.old false parser = some (tree, parser')) :
    parser.nextAddress ≤ parser'.nextAddress ∧ task.ready (parser'.lexer, parser'.payload) ∧
      parser'.stack.Stands task.metric task.text parser'.nextAddress [some Length.zero] ∧
      ∃ root, tree = tsTreeAssignParents root ∧ task.Finished parser'.nextAddress root := by
  rw [parserParse, parserStart] at hrun
  simp only [bind_assoc] at hrun
  rw [bind_eq_some_iff] at hrun
  obtain ⟨_, cleared, hclear, hrun⟩ := hrun
  obtain ⟨stack, hclearing, rfl⟩ := onStack_eq_some_iff.mp hclear
  rw [modify_bind] at hrun
  -- `parser__start`: one version at the start of the text, and the walk at the root of the old tree
  set started : TSParser π := { parser with
    stack := stack
    lexer := tsLexerSetInput parser.lexer
    reusableNode := reusableNodeNew task.old
    finishedTree := none } with hstarted
  have hsound : started.Sound task parser.nextAddress [some Length.zero] :=
    { since_le := Nat.le_refl _
      base_le := hbase
      stack := tsStackClear_stands hstack hclearing
      finished := fun tree htree => absurd htree (Option.some_ne_none tree).symm
      ready := hready
      reusable := placedIn_reusableNodeNew task.old }
  rw [bind_eq_some_iff] at hrun
  obtain ⟨_, parsed, hparse, hrun⟩ := hrun
  -- the loop: rounds over the versions, each followed by `parser__condense_stack`
  have hparsed : ∃ positions, parsed.Sound task parser.nextAddress positions := by
    refine @Triple.loop _ _ _ (fun _ parsed => ∃ positions, parsed.Sound task parser.nextAddress
      positions) _ (fun (vars : ℕ × ReusableNode) parsed =>
      (∃ positions, parsed.Sound task parser.nextAddress positions) ∧ vars.2.PlacedIn task.old) ?_
      fuel (0, reusableNodeNew task.old) started _ parsed
      ⟨⟨_, hsound⟩, placedIn_reusableNodeNew task.old⟩ hparse
    rintro vars middle turn next ⟨⟨positions, hmiddle⟩, hplaced⟩ hturn
    rw [bind_eq_some_iff] at hturn
    obtain ⟨⟨version, position, reusable⟩, rounded, hround, hturn⟩ := hturn
    obtain ⟨⟨positions', hrounded⟩, hplaced'⟩ := hmiddle.round hplaced hround
    simp only at hplaced' hturn
    rw [modify_bind] at hturn
    have hkept : TSParser.Sound task parser.nextAddress positions'
      { rounded with reusableNode := reusable } :=
      { hrounded with reusable := hplaced' }
    rw [bind_eq_some_iff] at hturn
    obtain ⟨condensing, condensed, hcondense, hturn⟩ := hturn
    obtain ⟨positions'', hcondensed⟩ := hkept.condenseStack hcondense
    simp only [Bool.false_and, Bool.false_eq_true, if_false] at hturn
    rw [modify_bind, pure_eq_some_iff] at hturn
    obtain ⟨rfl, rfl⟩ := hturn
    have hsplit : TSParser.Sound task parser.nextAddress positions''
        { condensed with isSplit := decide (version > 1) } := { hcondensed with }
    split
    · next heq =>
        split at heq
        · obtain rfl := Sum.inl.inj heq
          exact ⟨⟨positions'', hsplit⟩, hplaced'⟩
        · exact absurd heq Sum.inr_ne_inl
    · exact ⟨positions'', hsplit⟩
  -- behind the loop the stack is cleared, and the nodes of the finished tree are told their places
  obtain ⟨positions, hparsed⟩ := hparsed
  rw [bind_eq_some_iff] at hrun
  obtain ⟨_, cleared, hclear', hrun⟩ := hrun
  obtain ⟨stack', hclearing', rfl⟩ := onStack_eq_some_iff.mp hclear'
  rw [get_bind, bind_eq_some_iff] at hrun
  obtain ⟨root, _, hroot, hrun⟩ := hrun
  obtain ⟨hroot', rfl⟩ := ofOption_eq_some_iff.mp hroot
  rw [set_bind, pure_eq_some_iff] at hrun
  obtain ⟨rfl, rfl⟩ := hrun
  exact ⟨hparsed.since_le, hparsed.ready, tsStackClear_stands hparsed.stack hclearing', root, rfl,
    hparsed.finished root hroot'⟩

end TreeSitterTextStorage
