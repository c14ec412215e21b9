import Mathlib
/-!
# `TAO_Naming_Context::to_string` and `to_name`

`to_string` counts, in 32 bits, two characters for each component beside the escaped ones,
allocates that many and one, and writes the components, without the `.` of an empty kind.
`to_name` counts components and characters in one pass, and copies in another.

A string is the list of its characters; its end is the NUL. A string of 2^32 characters or
more cannot be counted by `to_name` and is left out there.

* `text_length`: how long the string is, in the characters of the components;
* `name_roundTrip_iff`: every name comes back, and all writes are in the buffers, but for the name
  of one component with nothing in it, whose string `to_name` rejects, and names with too many
  characters to count.
-/
namespace Atcd.Naming

open List

/-- A character that is not NUL. -/
abbrev Chr := {c : UInt8 // c ≠ 0}

def dot : Chr := ⟨46, by decide⟩
def slash : Chr := ⟨47, by decide⟩
def backslash : Chr := ⟨92, by decide⟩

/-- `CosNaming::NameComponent`; an element of a new sequence has empty strings. -/
structure Component where
  id : List Chr
  kind : List Chr
deriving DecidableEq

def special (c : Chr) : Bool := c = dot || c = backslash || c = slash

/-- mirrors TAO/orbsvcs/orbsvcs/Naming/Naming_Context_Interface.cpp:98-110 -/
def toStringHelperLength (src : List Chr) : Nat :=
  (src.map fun c => if special c then 2 else 1).sum + 1

/-- mirrors Naming_Context_Interface.cpp:112-126 -/
def toStringHelperAssign : List Chr → List Chr
  | [] => []
  | c :: src =>
    if special c then backslash :: c :: toStringHelperAssign src
    else c :: toStringHelperAssign src

def stringify (c : Component) : List Chr :=
  toStringHelperAssign c.id ++
    if c.kind = [] then [] else dot :: toStringHelperAssign c.kind

/-- What is written before the terminating NUL. -/
def text : List Component → List Chr
  | [] => []
  | [c] => stringify c
  | c :: d :: n => stringify c ++ slash :: text (d :: n)

def count (n : List Component) : Nat :=
  (n.map fun c => toStringHelperLength c.id + toStringHelperLength c.kind).sum

/-- Characters written, less the NUL, and the size of their buffer. -/
structure Written where
  chars : List Chr
  allocated : Nat
deriving DecidableEq

/-- `string_alloc` allocates one more than its argument, in 32 bits. `none` is `InvalidName`.
mirrors Naming_Context_Interface.cpp:128-207,
TAO/tao/String_Alloc.cpp:47-57 -/
def toString (n : List Component) : Option Written :=
  if n = [] then none
  else some ⟨text n, (count n % 2 ^ 32 + 1) % 2 ^ 32⟩

inductive Hint | id | kind
deriving DecidableEq

/-- What is copied, and where the reader stands.
mirrors Naming_Context_Interface.cpp:209-237 -/
def toNameHelper (hint : Hint) : List Chr → List Chr × List Chr
  | [] => ([], [])
  | c :: src =>
    if hint = .id ∧ c = dot ∨ c = slash then ([], c :: src)
    else if c = backslash then
      match src with
      | [] => ([], [])
      | d :: src => (d :: (toNameHelper hint src).1, (toNameHelper hint src).2)
    else (c :: (toNameHelper hint src).1, (toNameHelper hint src).2)

/-- `ncomp` and `len`; `none` when the pass runs past the NUL behind a backslash.
mirrors Naming_Context_Interface.cpp:252-274 -/
def countPass : List Chr → Nat → Nat → Option (Nat × Nat)
  | [], ncomp, len => some (ncomp, len)
  | c :: s, ncomp, len =>
    if c = slash then countPass s (ncomp + 1) (len + 1)
    else if c = backslash then
      match s with
      | [] => none
      | _ :: s => countPass s ncomp (len + 1)
    else countPass s ncomp (len + 1)

def readComponent (s : List Chr) : Component × List Chr :=
  let id := toNameHelper .id s
  match id.2 with
  | [] => (⟨id.1, []⟩, [])
  | c :: rest =>
    if c = dot then (⟨id.1, (toNameHelper .kind rest).1⟩, (toNameHelper .kind rest).2)
    else (⟨id.1, []⟩, c :: rest)

/-- The copying pass, with room for so many components.
mirrors Naming_Context_Interface.cpp:290-322 -/
def copyPass : Nat → List Chr → Option (List Component)
  | _, [] => some []
  | 0, _ :: _ => none
  | left + 1, c :: s =>
    match (readComponent (c :: s)).2 with
    | [] => some [(readComponent (c :: s)).1]
    | _ :: rest => (copyPass left rest).map ((readComponent (c :: s)).1 :: ·)

/-- The components, and the size of the buffers of their ids and kinds. `none` is
`InvalidName`, or a read past the NUL.
mirrors Naming_Context_Interface.cpp:239-325 -/
def toName (sn : List Chr) : Option (List Component × Nat) :=
  (countPass sn 0 0).bind fun (ncomp, len) =>
    if len = 0 then none
    else (copyPass (ncomp + 1) sn).map fun n =>
      (n ++ List.replicate (ncomp + 1 - n.length) ⟨[], []⟩, (len + 1) % 2 ^ 32)

/-- The name comes back, and no buffer is too small for what is written, with its NUL. -/
def RoundTrips (n : List Component) : Prop :=
  ∃ w size, toString n = some w ∧ w.chars.length + 1 ≤ w.allocated ∧
    toName w.chars = some (n, size) ∧
    ∀ c ∈ n, c.id.length + 1 ≤ size ∧ c.kind.length + 1 ≤ size

/-- Two for a component, and its characters, the special ones twice. -/
def weight (c : Component) : Nat :=
  2 + (c.id ++ c.kind).length + (c.id ++ c.kind).countP special

def weights (n : List Component) : Nat := (n.map weight).sum

def emptyKinds (n : List Component) : Nat := n.countP (·.kind = [])

/-- What 32 bits lose of the count is made up for by the characters that are counted for empty
kinds and not written. -/
def Fits (n : List Component) : Prop :=
  (weights n + 1) / 2 ^ 32 * 2 ^ 32 ≤ emptyKinds n + 1

/-! ## Reading what was written -/

def Stops (hint : Hint) (rest : List Chr) : Prop :=
  ∀ c ∈ rest.head?, hint = .id ∧ c = dot ∨ c = slash

theorem helper_plain {hint : Hint} {c : Chr} (hstop : ¬(hint = .id ∧ c = dot ∨ c = slash))
    (hback : c ≠ backslash) (s : List Chr) :
    toNameHelper hint (c :: s) = (c :: (toNameHelper hint s).1, (toNameHelper hint s).2) := by
  rw [toNameHelper.eq_def]
  simp [hstop, hback]

theorem countPass_plain {c : Chr} (hback : c ≠ backslash) (s : List Chr) (ncomp len : Nat) :
    countPass (c :: s) ncomp len =
      countPass s (if c = slash then ncomp + 1 else ncomp) (len + 1) := by
  rw [countPass.eq_def]
  simp only [hback, if_false]
  split <;> rfl

theorem assign_length (s : List Chr) :
    (toStringHelperAssign s).length + 1 = toStringHelperLength s := by
  induction s with
  | nil => rfl
  | cons c s ih =>
    simp only [toStringHelperLength, map_cons, sum_cons] at ih ⊢
    cases h : special c <;> simp [toStringHelperAssign, h] <;> omega

theorem toStringHelperLength_eq (s : List Chr) :
    toStringHelperLength s = s.length + s.countP special + 1 := by
  induction s with
  | nil => rfl
  | cons c s ih =>
    simp only [toStringHelperLength, map_cons, sum_cons, length_cons, countP_cons] at ih ⊢
    split <;> omega

theorem weight_eq (c : Component) :
    weight c = toStringHelperLength c.id + toStringHelperLength c.kind := by
  rw [weight, toStringHelperLength_eq, toStringHelperLength_eq, length_append, countP_append]
  omega

theorem count_eq (n : List Component) : count n = weights n := by
  rw [weights, map_congr_left fun c _ => weight_eq c, count]

/-- The `.` of an empty kind and the separator behind the last component are not written. -/
theorem stringify_length (c : Component) :
    (stringify c).length + 1 + (if c.kind = [] then 1 else 0) = weight c := by
  have hid := assign_length c.id
  have hkind := assign_length c.kind
  rw [weight_eq, stringify, length_append]
  by_cases h : c.kind = []
  · rw [if_pos h, if_pos h, h]
    simp only [length_nil, toStringHelperLength, map_nil, sum_nil] at hid ⊢
    omega
  · rw [if_neg h, if_neg h, length_cons]
    omega

theorem text_length (c : Component) (n : List Component) :
    (text (c :: n)).length + 1 + emptyKinds (c :: n) = weights (c :: n) := by
  induction n generalizing c with
  | nil =>
    have hc := stringify_length c
    simp only [text, emptyKinds, countP_singleton, weights, map_cons, map_nil, sum_cons, sum_nil,
      decide_eq_true_eq]
    omega
  | cons d n ih =>
    have hc := stringify_length c
    have hrest := ih d
    simp only [text, emptyKinds, countP_cons (a := c), weights, map_cons, sum_cons, length_append,
      length_cons, decide_eq_true_eq] at hrest ⊢
    omega

/-- The string and its NUL are no longer than the buffer. -/
theorem room_iff (c : Component) (n : List Component) :
    (text (c :: n)).length + 1 ≤ (count (c :: n) + 1) % 2 ^ 32 ↔ Fits (c :: n) := by
  have hlen := text_length c n
  rw [count_eq]
  unfold Fits
  omega

theorem helper_assign (hint : Hint) (s : List Chr) {rest : List Chr} (h : Stops hint rest) :
    toNameHelper hint (toStringHelperAssign s ++ rest) = (s, rest) := by
  induction s with
  | nil =>
    cases rest with
    | nil => rfl
    | cons c rest =>
      rw [toStringHelperAssign, nil_append, toNameHelper.eq_def]
      simp [h c rfl]
  | cons c s ih =>
    cases hc : special c with
    | true =>
      have hback : ¬(hint = .id ∧ backslash = dot ∨ backslash = slash) := by
        rintro (⟨-, h⟩ | h) <;> exact absurd h (by decide)
      simp [toStringHelperAssign, hc, toNameHelper, hback, ih]
    | false =>
      simp only [special, Bool.or_eq_false_iff, decide_eq_false_iff_not] at hc
      obtain ⟨⟨hdot, hback⟩, hslash⟩ := hc
      have hstop : ¬(hint = .id ∧ c = dot ∨ c = slash) := by simp [hdot, hslash]
      simp [toStringHelperAssign, special, helper_plain hstop hback, hdot, hback, hslash, ih]

theorem countPass_assign (s rest : List Chr) (ncomp len : Nat) :
    countPass (toStringHelperAssign s ++ rest) ncomp len =
      countPass rest ncomp (len + s.length) := by
  induction s generalizing len with
  | nil => rfl
  | cons c s ih =>
    have hlen : len + 1 + s.length = len + (c :: s).length := by
      simp only [length_cons]
      omega
    cases hc : special c with
    | true =>
      have hback : backslash ≠ slash := by decide
      simp only [toStringHelperAssign, hc, if_true, cons_append, countPass, hback, if_false,
        ih, hlen]
    | false =>
      simp only [special, Bool.or_eq_false_iff, decide_eq_false_iff_not] at hc
      obtain ⟨⟨hdot, hback⟩, hslash⟩ := hc
      simp only [toStringHelperAssign, special, hdot, hback, hslash, decide_false, Bool.or_self,
        Bool.false_eq_true, if_false, cons_append, countPass_plain hback, ih, hlen]

/-- Characters that the counting pass sees in a component. -/
def seen (c : Component) : Nat :=
  c.id.length + if c.kind = [] then 0 else c.kind.length + 1

theorem countPass_stringify (c : Component) (rest : List Chr) (ncomp len : Nat) :
    countPass (stringify c ++ rest) ncomp len = countPass rest ncomp (len + seen c) := by
  rw [stringify, append_assoc, countPass_assign, seen]
  split
  · rfl
  · have h : dot ≠ slash ∧ dot ≠ backslash := by decide
    have hlen : len + c.id.length + 1 + c.kind.length =
        len + (c.id.length + (c.kind.length + 1)) := by omega
    simp only [cons_append, countPass_plain h.2, h.1, if_false, countPass_assign, hlen]

theorem countPass_text (c : Component) (n : List Component) (ncomp len : Nat) :
    countPass (text (c :: n)) ncomp len =
      some (ncomp + n.length, len + (((c :: n).map seen).sum + n.length)) := by
  induction n generalizing c ncomp len with
  | nil =>
    have h := countPass_stringify c [] ncomp len
    rw [append_nil] at h
    rw [text, h]
    simp [countPass]
  | cons d n ih =>
    rw [text, countPass_stringify, countPass_plain (by decide), ih]
    simp only [if_true, map_cons, sum_cons, length_cons]
    congr 2 <;> omega

theorem readComponent_stringify (c : Component) (rest : List Chr)
    (h : ∀ d ∈ rest.head?, d = slash) : readComponent (stringify c ++ rest) = (c, rest) := by
  obtain ⟨id, kind⟩ := c
  cases kind with
  | nil =>
    have hid : toNameHelper .id (stringify ⟨id, []⟩ ++ rest) = (id, rest) := by
      simpa [stringify] using helper_assign .id id fun d hd => Or.inr (h d hd)
    simp only [readComponent, hid]
    cases rest with
    | nil => rfl
    | cons d rest =>
      have hd : d = slash := h d rfl
      subst hd
      simp [show slash ≠ dot by decide]
  | cons k kind =>
    have hid : toNameHelper .id (stringify ⟨id, k :: kind⟩ ++ rest) =
        (id, dot :: (toStringHelperAssign (k :: kind) ++ rest)) := by
      have hstop : Stops .id (dot :: (toStringHelperAssign (k :: kind) ++ rest)) := by
        intro d hd
        cases hd
        exact Or.inl ⟨rfl, rfl⟩
      simpa [stringify] using helper_assign .id id hstop
    have hkind := helper_assign .kind (k :: kind) fun d hd => Or.inr (h d hd)
    simp only [readComponent, hid, if_true, hkind]

theorem stringify_eq_nil {c : Component} (h : stringify c = []) : c = ⟨[], []⟩ := by
  obtain ⟨id, kind⟩ := c
  have hc := readComponent_stringify ⟨id, kind⟩ [] (by simp)
  rw [h] at hc
  exact (congrArg Prod.fst hc).symm

/-- The copying pass leaves out an empty last component, which is there by default. -/
theorem copyPass_text (c : Component) (n : List Component) :
    ∃ m, copyPass (n.length + 1) (text (c :: n)) = some m ∧
      m ++ replicate (n.length + 1 - m.length) ⟨[], []⟩ = c :: n := by
  induction n generalizing c with
  | nil =>
    cases h : stringify c with
    | nil => exact ⟨[], by simp [text, h, copyPass], by simp [stringify_eq_nil h]⟩
    | cons d s =>
      have hread := readComponent_stringify c [] (by simp)
      rw [append_nil, h] at hread
      exact ⟨[c], by simp [text, h, copyPass, hread], rfl⟩
  | cons d n ih =>
    obtain ⟨m, hm, hrest⟩ := ih d
    have hread := readComponent_stringify c (slash :: text (d :: n)) (by simp)
    refine ⟨c :: m, ?_, by simpa using hrest⟩
    rw [text, length_cons]
    cases hs : stringify c ++ slash :: text (d :: n) with
    | nil => simp at hs
    | cons e s =>
      rw [hs] at hread
      simp only [copyPass, hread, hm, Option.map_some]

theorem seen_le (c : Component) : seen c ≤ (stringify c).length := by
  have hid := assign_length c.id
  have hkind := assign_length c.kind
  have hmap : ∀ s : List Chr, s.length + 1 ≤ toStringHelperLength s := by
    intro s
    induction s with
    | nil => simp [toStringHelperLength]
    | cons a s ih =>
      simp only [toStringHelperLength, map_cons, sum_cons, length_cons] at ih ⊢
      split <;> omega
  have h₁ := hmap c.id
  have h₂ := hmap c.kind
  simp only [seen, stringify, length_append]
  split <;> simp <;> omega

theorem seen_text (c : Component) (n : List Component) :
    ((c :: n).map seen).sum + n.length ≤ (text (c :: n)).length := by
  induction n generalizing c with
  | nil => simpa [text] using seen_le c
  | cons d n ih =>
    have h := ih d
    have hc := seen_le c
    simp only [map_cons, sum_cons, length_cons, text, length_append] at h ⊢
    omega

theorem toName_text {c : Component} {n : List Component}
    (hlen : ((c :: n).map seen).sum + n.length ≠ 0) : toName (text (c :: n)) =
      some (c :: n, (((c :: n).map seen).sum + n.length + 1) % 2 ^ 32) := by
  obtain ⟨m, hm, hall⟩ := copyPass_text c n
  simp only [toName, countPass_text, Nat.zero_add, Option.bind_some, hlen, if_false, hm,
    Option.map_some, hall]

/-- **A name comes back** through its string, without writes outside the buffers, if and only
if it is not the one of one empty component and its characters can be counted. -/
theorem name_roundTrip_iff (c : Component) (n : List Component) :
    RoundTrips (c :: n) ↔ c :: n ≠ [⟨[], []⟩] ∧ Fits (c :: n) := by
  have hstring : toString (c :: n) = some ⟨text (c :: n), (count (c :: n) + 1) % 2 ^ 32⟩ := by
    simp [toString]
  constructor
  · rintro ⟨w, size, hw, hroom, hname, -⟩
    rw [hstring] at hw
    cases hw
    refine ⟨fun h => ?_, (room_iff c n).mp hroom⟩
    rw [h] at hname
    cases hname
  · rintro ⟨hne, hfits⟩
    have hlen : ((c :: n).map seen).sum + n.length ≠ 0 := by
      intro hzero
      have hn : n = [] := length_eq_zero_iff.mp (by omega)
      subst hn
      obtain ⟨id, kind⟩ := c
      have hseen : seen ⟨id, kind⟩ = 0 := by simpa using hzero
      simp only [seen, Nat.add_eq_zero_iff, length_eq_zero_iff] at hseen
      obtain ⟨rfl, hkind⟩ := hseen
      cases kind with
      | nil => exact hne rfl
      | cons k kind => simp at hkind
    have hsmall : ((c :: n).map seen).sum + n.length + 1 < 2 ^ 32 := by
      have htext := seen_text c n
      have hroom := (room_iff c n).mpr hfits
      omega
    have hname := toName_text hlen
    rw [Nat.mod_eq_of_lt hsmall] at hname
    refine ⟨_, _, hstring, (room_iff c n).mpr hfits, hname, fun d hd => ?_⟩
    have hle : seen d ≤ ((c :: n).map seen).sum := single_le_sum (by simp) _
      (mem_map_of_mem hd)
    rw [show seen d = d.id.length + if d.kind = [] then 0 else d.kind.length + 1 from rfl] at hle
    constructor
    · omega
    · split at hle
      · rename_i hkind
        rw [hkind, length_nil]
        omega
      · omega

/-- The string of one empty component is empty, which `to_name` takes for no name. -/
theorem empty_component_lost : ¬RoundTrips [⟨[], []⟩] := by
  rintro ⟨w, size, hw, -, hname, -⟩
  cases hw
  cases hname

end Atcd.Naming
