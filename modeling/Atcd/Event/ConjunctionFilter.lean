import Atcd.Core.Run
import Atcd.Core.WordSet
/-!
# `TAO_EC_Conjunction_Filter`: one push for all children

The filter passes an event to its children in turn; a child that accepts pushes from there. The
filter finds out which child pushes by a cursor, which `filter` moves and `filter_nocopy` does
not. What the children do is given with each call: what they push, and whether they end it.

Results:
- `push_keeps`: a push by the child at the cursor is noted for that child;
- `pushed_once`: as long as the cursor is at the child that pushes, the parent gets the first
  event sets of all children once, when the last of them has come.
-/
namespace Atcd.Event
open Atcd.Core List

variable {E : Type*}

/-- The filter between two calls of `clear`, with what its parent got. The cursor is a position
among the children, or not initialised.
mirrors TAO/orbsvcs/orbsvcs/Event/EC_Conjunction_Filter.h:76-102 -/
structure ConjunctionFilter (E : Type*) where
  n : Nat
  event : List E
  bitvec : List (BitVec 32)
  current_child : Option Nat
  pushed : List (List E)

/-- What a child does with an event: the sets that it pushes, and whether it returns a number
other than 0. -/
structure Answer (E : Type*) where
  pushes : List (List E)
  accepted : Bool

/-- A call, with the answers of the children. -/
structure FilterCall (E : Type*) (n : Nat) where
  nocopy : Bool
  answers : Fin n → Answer E

namespace ConjunctionFilter

/-- mirrors TAO/orbsvcs/orbsvcs/Event/EC_Conjunction_Filter.cpp:9-27, 141-161 -/
def cleared (E : Type*) (n : Nat) (current_child : Option Nat) : ConjunctionFilter E where
  n := n
  event := []
  bitvec := WordSet.new 32 n
  current_child := current_child
  pushed := []

/-- The position is a `CORBA::Long`; `none` when it is negative, or not known.
mirrors EC_Conjunction_Filter.cpp:114-139, 47-59 -/
def push (s : ConjunctionFilter E) (event : List E) : Option (ConjunctionFilter E) :=
  s.current_child.bind fun current =>
    let pos := current % 2 ^ 32
    if 2 ^ 31 ≤ pos then none
    else if WordSet.test s.bitvec pos then some s
    else
      let s := { s with bitvec := WordSet.mark s.bitvec pos, event := s.event ++ event }
      some { s with pushed := if WordSet.full s.bitvec then s.pushed ++ [s.event] else s.pushed }

def pushAll (s : ConjunctionFilter E) (events : List (List E)) : Option (ConjunctionFilter E) :=
  events.foldlM push s

/-- The loop over the children from a position on, with the cursor or without it. -/
def passFrom (moves : Bool) (s : ConjunctionFilter E) (i : Nat) :
    List (Answer E) → Option (ConjunctionFilter E)
  | [] => some (if moves then { s with current_child := some i } else s)
  | answer :: answers =>
    let s := if moves then { s with current_child := some i } else s
    (s.pushAll answer.pushes).bind fun s =>
      if answer.accepted then some s else s.passFrom moves (i + 1) answers

/-- mirrors EC_Conjunction_Filter.cpp:79-94 -/
def filter {n : Nat} (s : ConjunctionFilter E) (answers : Fin n → Answer E) :
    Option (ConjunctionFilter E) := s.passFrom true 0 (List.ofFn answers)

/-- mirrors EC_Conjunction_Filter.cpp:96-112 -/
def filterNocopy {n : Nat} (s : ConjunctionFilter E) (answers : Fin n → Answer E) :
    Option (ConjunctionFilter E) := s.passFrom false 0 (List.ofFn answers)

def step {n : Nat} (s : ConjunctionFilter E) (call : FilterCall E n) :
    Option (ConjunctionFilter E) :=
  if call.nocopy then s.filterNocopy call.answers else s.filter call.answers

end ConjunctionFilter

/-! ## What should be pushed -/

/-- What the children from a position on accept, each with its position. -/
def acceptedFrom (i : Nat) : List (Answer E) → List (Nat × List E)
  | [] => []
  | answer :: answers =>
    answer.pushes.map (i, ·) ++ if answer.accepted then [] else acceptedFrom (i + 1) answers

def FilterCall.acceptances {n : Nat} (call : FilterCall E n) : List (Nat × List E) :=
  acceptedFrom 0 (List.ofFn call.answers)

def firsts (l : List (Nat × List E)) : List (Nat × List E) :=
  l.foldl (fun first a => if first.any (·.1 == a.1) then first else first ++ [a]) []

def Complete (n : Nat) (l : List (Nat × List E)) : Prop := ∀ i < n, ∃ a ∈ l, a.1 = i

/-- What the parent should have got. -/
structure Exact (n : Nat) (l : List (Nat × List E)) (pushed : List (List E)) : Prop where
  complete : Complete n l → pushed = [(firsts l).flatMap (·.2)]
  incomplete : ¬Complete n l → pushed = []

theorem firsts_concat (l : List (Nat × List E)) (a : Nat × List E) : firsts (l ++ [a]) =
      if (firsts l).any (·.1 == a.1) then firsts l else firsts l ++ [a] := by
  rw [firsts, foldl_concat]
  rfl

theorem mem_firsts (l : List (Nat × List E)) (i : Nat) :
    (firsts l).any (·.1 == i) = true ↔ ∃ a ∈ l, a.1 = i := by
  induction l using reverseRecOn with
  | nil => simp [firsts]
  | append_singleton l a ih =>
    have hor : (∃ b ∈ l ++ [a], b.1 = i) ↔ (firsts l).any (·.1 == i) = true ∨ a.1 = i := by
      rw [ih]
      simp [or_and_right, exists_or]
    rw [hor, firsts_concat]
    split_ifs with hany
    · constructor
      · exact Or.inl
      · rintro (h | rfl)
        · exact h
        · exact hany
    · simp

namespace ConjunctionFilter

/-- The bits of the children that have accepted. -/
structure Bits (n : Nat) (ws : List (BitVec 32)) (l : List (Nat × List E)) : Prop where
  words : ws.length = n / 32 + 1
  bits : ∀ j, j / 32 < n / 32 + 1 → (WordSet.test ws j = true ↔ n ≤ j ∨ ∃ a ∈ l, a.1 = j)

theorem Bits.full_iff {n : Nat} {ws : List (BitVec 32)} {l : List (Nat × List E)}
    (h : Bits n ws l) : WordSet.full ws = true ↔ Complete n l := by
  rw [WordSet.full_iff (by decide), h.words]
  constructor
  · intro hall i hi
    rcases (h.bits i (by omega)).mp (hall i (by omega)) with hle | hex
    · omega
    · exact hex
  · intro hall j hj
    rw [h.bits j hj]
    rcases Nat.lt_or_ge j n with hlt | hge
    · exact .inr (hall j hlt)
    · exact .inl hge

/-- The filter has noted these acceptances. -/
structure Noted (n : Nat) (s : ConjunctionFilter E) (l : List (Nat × List E)) : Prop
    extends Bits n s.bitvec l where
  event : s.event = (firsts l).flatMap (·.2)
  pushed : Exact n l s.pushed

variable {n : Nat} {s : ConjunctionFilter E} {l : List (Nat × List E)}

theorem cleared_noted (hn : 0 < n) (current_child : Option Nat) :
    Noted n (cleared E n current_child) [] where
  words := WordSet.length_new 32 n
  bits := by
    intro j hj
    rw [cleared, WordSet.test_new (by decide) (by omega)]
    simp
  event := rfl
  pushed := ⟨fun h => absurd (h 0 hn) (by simp), fun _ => rfl⟩

theorem Noted.move (h : s.Noted n l) (current_child : Option Nat) :
    Noted n { s with current_child := current_child } l := ⟨h.toBits, h.event, h.pushed⟩

theorem push_keeps (h : s.Noted n l) {i : Nat} (hi : i < n) (hsmall : i < 2 ^ 31)
    (hcur : s.current_child = some i) (event : List E) :
    ∃ s', s.push event = some s' ∧ s'.Noted n (l ++ [(i, event)]) ∧ s'.current_child = some i := by
  have hmod : i % 2 ^ 32 = i := Nat.mod_eq_of_lt (by omega)
  have hmem : ∀ j, (∃ a ∈ l ++ [(i, event)], a.1 = j) ↔ (∃ a ∈ l, a.1 = j) ∨ j = i := by
    simp [or_and_right, exists_or, eq_comm]
  have hbit := h.bits i (by omega)
  rw [push, hcur, Option.bind_some, hmod, if_neg (by omega)]
  by_cases hset : WordSet.test s.bitvec i = true
  · have hin : ∃ a ∈ l, a.1 = i := (hbit.mp hset).resolve_left (by omega)
    have hsame : ∀ j, (∃ a ∈ l ++ [(i, event)], a.1 = j) ↔ ∃ a ∈ l, a.1 = j := by
      intro j
      rw [hmem j]
      constructor
      · rintro (hj | rfl)
        · exact hj
        · exact hin
      · exact Or.inl
    have hfirsts : firsts (l ++ [(i, event)]) = firsts l := by
      rw [firsts_concat, if_pos ((mem_firsts l i).mpr hin)]
    have hcomplete : Complete n (l ++ [(i, event)]) ↔ Complete n l := by
      simp only [Complete, hsame]
    rw [if_pos hset]
    refine ⟨s, rfl, ⟨⟨h.words, fun j hj => ?_⟩, ?_, ?_⟩, hcur⟩
    · rw [h.bits j hj, hsame]
    · rw [h.event, hfirsts]
    · exact ⟨fun hc => by rw [hfirsts]; exact h.pushed.complete (hcomplete.mp hc),
        fun hc => h.pushed.incomplete fun hl => hc (hcomplete.mpr hl)⟩
  · have hout : ¬∃ a ∈ l, a.1 = i := fun hin => hset (hbit.mpr (.inr hin))
    have hfirsts : firsts (l ++ [(i, event)]) = firsts l ++ [(i, event)] := by
      rw [firsts_concat, if_neg (fun hany => hout ((mem_firsts l i).mp hany))]
    have hnone : s.pushed = [] := h.pushed.incomplete fun hc => hout (hc i hi)
    have hword : i / 32 < s.bitvec.length := by
      rw [h.words]
      omega
    rw [if_neg hset]
    -- the bits and the event first, then what is pushed for them
    have hevent : s.event ++ event = (firsts (l ++ [(i, event)])).flatMap (·.2) := by
      simp [hfirsts, h.event]
    have hbits : Bits n (WordSet.mark s.bitvec i) (l ++ [(i, event)]) := by
      refine ⟨(WordSet.length_mark _ _).trans h.words, fun j hj => ?_⟩
      rw [WordSet.test_mark (by decide) hword, hmem, Bool.or_eq_true, decide_eq_true_iff,
        h.bits j hj, or_left_comm, or_comm (a := j = i)]
    refine ⟨_, rfl, ⟨hbits, hevent, fun hc => ?_, fun hc => ?_⟩, rfl⟩
    · dsimp only
      rw [if_pos (hbits.full_iff.mpr hc), hnone, hevent, nil_append]
    · dsimp only
      rw [if_neg (fun hall => hc (hbits.full_iff.mp hall)), hnone]

theorem pushAll_keeps {i : Nat} (hi : i < n) (events : List (List E)) :
    ∀ {s : ConjunctionFilter E} {l : List (Nat × List E)}, s.Noted n l →
      (events ≠ [] → s.current_child = some i ∧ i < 2 ^ 31) → ∃ s', s.pushAll events = some s' ∧
        s'.Noted n (l ++ events.map (i, ·)) ∧ s'.current_child = s.current_child := by
  induction events with
  | nil =>
    intro s l h _
    exact ⟨s, rfl, by simpa using h, rfl⟩
  | cons event events ih =>
    intro s l h hgood
    obtain ⟨hcur, hsmall⟩ := hgood (cons_ne_nil _ _)
    obtain ⟨t, ht, hnoted, hcur'⟩ := push_keeps h hi hsmall hcur event
    obtain ⟨u, hu, hnoted', hcur''⟩ := ih hnoted fun _ => ⟨hcur', hsmall⟩
    refine ⟨u, ?_, by simpa using hnoted', by rw [hcur'', hcur', hcur]⟩
    rw [pushAll, foldlM_cons, ht]
    exact hu

theorem passFrom_keeps (moves : Bool) (answers : List (Answer E)) :
    ∀ {i : Nat} {s : ConjunctionFilter E} {l : List (Nat × List E)}, i + answers.length = n →
      s.Noted n l → (∀ a ∈ acceptedFrom i answers,
        (moves = false → s.current_child = some a.1) ∧ a.1 < 2 ^ 31) →
      ∃ s', s.passFrom moves i answers = some s' ∧ s'.Noted n (l ++ acceptedFrom i answers) := by
  induction answers with
  | nil =>
    intro i s l _ h _
    rw [acceptedFrom, append_nil]
    cases moves
    · exact ⟨_, rfl, h⟩
    · exact ⟨_, rfl, h.move (some i)⟩
  | cons answer answers ih =>
    intro i s l hlen h hgood
    rw [length_cons] at hlen
    let t := if moves then { s with current_child := some i } else s
    have ht : t.Noted n l := by
      cases moves
      · exact h
      · exact h.move (some i)
    have hat : answer.pushes ≠ [] → t.current_child = some i ∧ i < 2 ^ 31 := by
      intro hne
      obtain ⟨event, events, heq⟩ := exists_cons_of_ne_nil hne
      obtain ⟨hcur, hsmall⟩ := hgood (i, event) (by simp [acceptedFrom, heq])
      cases moves
      · exact ⟨hcur rfl, hsmall⟩
      · exact ⟨rfl, hsmall⟩
    obtain ⟨u, hu, hnoted, hcur⟩ := pushAll_keeps (by omega) answer.pushes ht hat
    have hpass : s.passFrom moves i (answer :: answers) =
        if answer.accepted then some u else u.passFrom moves (i + 1) answers := by
      change (t.pushAll answer.pushes).bind _ = _
      rw [hu]
      rfl
    rw [hpass, acceptedFrom]
    by_cases hacc : answer.accepted = true
    · rw [if_pos hacc, if_pos hacc, append_nil]
      exact ⟨u, rfl, hnoted⟩
    · rw [if_neg hacc, if_neg hacc, ← append_assoc]
      refine ih (by omega) hnoted fun a ha => ?_
      obtain ⟨hkeep, hsmall⟩ := hgood a (by simp [acceptedFrom, hacc, ha])
      refine ⟨fun hm => ?_, hsmall⟩
      subst hm
      rw [hcur]
      exact hkeep rfl

/-- The children that accept have positions in the range of `CORBA::Long`, and with
`filter_nocopy` it is the one that the last `filter` stopped at. -/
def Good (s : ConjunctionFilter E) (call : FilterCall E n) : Prop :=
  ∀ a ∈ call.acceptances, (call.nocopy = true → s.current_child = some a.1) ∧ a.1 < 2 ^ 31

instance (s : ConjunctionFilter E) (call : FilterCall E n) : Decidable (s.Good call) :=
  inferInstanceAs (Decidable (∀ a ∈ call.acceptances, _))

theorem step_keeps (h : s.Noted n l) {call : FilterCall E n} (hgood : s.Good call) :
    ∃ s', s.step call = some s' ∧ s'.Noted n (l ++ call.acceptances) := by
  have hpass := passFrom_keeps (!call.nocopy) (ofFn call.answers) (i := 0) (by simp) h
    fun a ha => ⟨fun hm => (hgood a ha).1 (by simpa using hm), (hgood a ha).2⟩
  have hstep : s.step call = s.passFrom (!call.nocopy) 0 (ofFn call.answers) := by
    rw [step, filter, filterNocopy]
    cases call.nocopy <;> rfl
  rw [hstep]
  exact hpass

/-- **One push for all children**, as long as the cursor is at the child that pushes. -/
theorem pushed_once (hn : 0 < n) (current_child : Option Nat) (calls : List (FilterCall E n))
    (hgood : AllSteps step Good (cleared E n current_child) calls) :
    ∃ s, run step (cleared E n current_child) calls = some s ∧
      Exact n (calls.flatMap FilterCall.acceptances) s.pushed := by
  suffices hrun : ∀ {s : ConjunctionFilter E} {l : List (Nat × List E)}, s.Noted n l →
      AllSteps step Good s calls → ∃ s', run step s calls = some s' ∧
        s'.Noted n (l ++ calls.flatMap FilterCall.acceptances) by
    obtain ⟨s, hs, hnoted⟩ := hrun (cleared_noted hn current_child) hgood
    exact ⟨s, hs, hnoted.pushed⟩
  clear hgood
  induction calls with
  | nil =>
    intro s l h _
    exact ⟨s, rfl, by simpa using h⟩
  | cons call calls ih =>
    intro s l h hgood
    obtain ⟨t, ht, hnoted⟩ := step_keeps h hgood.1
    obtain ⟨u, hu, hnoted'⟩ := ih hnoted (hgood.2 t ht)
    refine ⟨u, ?_, by simpa using hnoted'⟩
    rw [run_cons, ht]
    exact hu

/-- Two children, of which one accepts. -/
def single (nocopy : Bool) (child : Fin 2) (event : Nat) : FilterCall Nat 2 where
  nocopy := nocopy
  answers i := if i = child then ⟨[[event]], true⟩ else ⟨[], false⟩

theorem pushed_once_single : ∃ s, run step (cleared Nat 2 none)
    [single false 0 7, single false 1 8] = some s ∧
      Exact 2 ([single false 0 7, single false 1 8].flatMap FilterCall.acceptances) s.pushed :=
  pushed_once (by decide) none _ (by decide)

/-- The second child accepts in `filter_nocopy`, and the parent gets nothing. -/
theorem nocopy_misplaced : ¬ ∀ (current_child : Option Nat) (calls : List (FilterCall Nat 2)),
    ∃ s, run step (cleared Nat 2 current_child) calls = some s ∧
      Exact 2 (calls.flatMap FilterCall.acceptances) s.pushed := by
  intro h
  obtain ⟨s, hs, hexact⟩ := h none [single false 0 7, single true 1 8]
  have hnothing : (run step (cleared Nat 2 none) [single false 0 7, single true 1 8]).map
      ConjunctionFilter.pushed = some [] := by decide
  rw [hs, Option.map_some, hexact.complete (by unfold Complete; decide)] at hnothing
  cases hnothing

end ConjunctionFilter

end Atcd.Event
