import Atcd.Rmcast.FragmentRuns
/-!
# Two senders on one socket

Two threads are in `Fragment::send` of the same socket. A thread takes the number of a part
under the lock, and sends the part later; every receiver gets the parts in the order of their
numbers.

Results:
* `concurrent_iff`: both messages arrive if and only if each of them fits and one thread takes
  all its numbers before the other one takes its first.
-/
namespace Atcd.Rmcast

open Atcd.Core List Function Option

inductive Sender where
  | one | two
  deriving DecidableEq, Repr

def Sender.other : Sender → Sender
  | one => two
  | two => one

@[simp] theorem Sender.other_other (t : Sender) : t.other.other = t := by cases t <;> rfl

/-- What a thread does next: draw the number of a part, or send the part. -/
inductive SendStep where
  | draw (t : Sender)
  | forward (t : Sender)

/-- `sent` are the parts on the network, with their numbers. -/
structure Senders where
  sn : Nat
  call : Sender → SendCall
  held : Sender → Option (Nat × Message)
  sent : List (Nat × Message)

namespace Senders

variable (params : Parameters)

/-- mirrors ACE/protocols/ace/RMCast/Fragment.cpp:27-36, 58-69 -/
def step (s : Senders) : SendStep → Option Senders
  | .draw t =>
    if s.held t = none ∧ (s.call t).done = false then
      ((s.call t).next params s.sn).map fun (m, c) =>
        { s with
          sn := s.sn + 1
          call := Function.update s.call t c
          held := Function.update s.held t (some (s.sn, m)) }
    else none
  | .forward t =>
    (s.held t).map fun part =>
      { s with
        held := Function.update s.held t none
        sent := s.sent ++ [part] }

/-- Both threads call `send` on a new socket. -/
def start (data : Sender → Payload) : Senders :=
  ⟨1, fun t => SendCall.start params (data t).bytes, fun _ => none, []⟩

def complete (s : Senders) : Prop := ∀ t, (s.call t).done = true ∧ s.held t = none

def Before (x y : Nat × Message) : Prop := x.1 ≤ y.1

instance (x y : Nat × Message) : Decidable (Before x y) := inferInstanceAs (Decidable (_ ≤ _))

/-- The parts in the order of their numbers. -/
def arrived (s : Senders) : List Message := (s.sent.insertionSort Before).map Prod.snd

/-- Both messages are passed up. -/
def Intact (source destination : Address) (data : Sender → Payload) (s : Senders) : Prop :=
  ∃ r out, Reassemble.start.recvAll (s.arrived.map (deliver source destination)) = some (r, out) ∧
    ∃ t : Sender, out.map contents = [(some source, some (data t).bytes), (some source, some (data t.other).bytes)]

end Senders

/-- Who draws the numbers. -/
def draws : List SendStep → List Sender
  | [] => []
  | .draw t :: rest => t :: draws rest
  | .forward _ :: rest => draws rest

/-- One thread draws all its numbers first. -/
def Sequential (ds : List Sender) : Prop :=
  ∃ (t : Sender) (n k : Nat), ds = List.replicate n t ++ List.replicate k t.other

/-! ## Interleavings -/

/-- `zs` is made of `xs` and `ys`; the list of senders says from where each element is. -/
inductive Interleaves {α : Type} : List Sender → List α → List α → List α → Prop where
  | nil : Interleaves [] [] [] []
  | one {ds : List Sender} {xs ys zs : List α} (x : α) (h : Interleaves ds xs ys zs) :
      Interleaves (.one :: ds) (x :: xs) ys (x :: zs)
  | two {ds : List Sender} {xs ys zs : List α} (y : α) (h : Interleaves ds xs ys zs) :
      Interleaves (.two :: ds) xs (y :: ys) (y :: zs)

section Interleavings

variable {α : Type} {ds : List Sender} {xs ys zs : List α}

theorem Interleaves.swap (h : Interleaves ds xs ys zs) : Interleaves (ds.map Sender.other) ys xs zs := by
  induction h with
  | nil => exact .nil
  | one x _ ih => exact .two x ih
  | two y _ ih => exact .one y ih

theorem Interleaves.nil_left (h : Interleaves ds [] ys zs) : ds = replicate ys.length .two ∧ zs = ys := by
  generalize hxs : ([] : List α) = xs at h
  induction h with
  | nil => exact ⟨rfl, rfl⟩
  | one => cases hxs
  | two y _ ih =>
    obtain ⟨rfl, rfl⟩ := ih hxs
    exact ⟨rfl, rfl⟩

theorem Sequential.map_other (h : Sequential (ds.map Sender.other)) : Sequential ds := by
  obtain ⟨t, n, k, heq⟩ := h
  refine ⟨t.other, n, k, ?_⟩
  have hmap := congrArg (map Sender.other) heq
  have hid : Sender.other ∘ Sender.other = id := funext Sender.other_other
  simpa [List.map_map, hid] using hmap

theorem Interleaves.of_two {k : Nat} (h : Interleaves (replicate k .two) xs ys zs) : xs = [] ∧ zs = ys := by
  induction k generalizing ys zs with
  | zero =>
    cases h
    exact ⟨rfl, rfl⟩
  | succ k ih =>
    cases h with
    | two y h =>
      obtain ⟨rfl, rfl⟩ := ih h
      exact ⟨rfl, rfl⟩

theorem Interleaves.of_replicate {n k : Nat} (h : Interleaves (replicate n .one ++ replicate k .two) xs ys zs) :
    zs = xs ++ ys := by
  induction n generalizing xs zs with
  | zero =>
    obtain ⟨rfl, rfl⟩ := Interleaves.of_two h
    rfl
  | succ n ih =>
    cases h with
    | one x h => rw [ih h, cons_append]

end Interleavings

/-! ## Runs -/

/-- Before its last piece a message is not finished. -/
def Unfinished : List Piece → Prop
  | [] => True
  | [_] => True
  | x :: y :: xs => (∃ num of totalSize data, x = .part num of totalSize data ∧ num ≠ of) ∧ Unfinished (y :: xs)

namespace SendCall

variable {params : Parameters} {c c' : SendCall} {xs : List Piece}

/-- The pieces that the call emits on its way from one point to another one. -/
inductive Emits (params : Parameters) : SendCall → List Piece → SendCall → Prop where
  | nil (c : SendCall) : Emits params c [] c
  | cons {c c' : SendCall} {xs : List Piece} (hdone : c.done = false) (hle : ¬ c.p.length < c.partSize params)
      (h : Emits params (c.advance params) xs c') : Emits params c (c.piece params :: xs) c'

theorem Emits.packets (h : Emits params c xs c') : c'.packets = c.packets := by
  induction h with
  | nil => rfl
  | cons _ _ _ ih => exact ih

/-- The loop variable counts the parts. -/
theorem Emits.length_le (h : Emits params c xs c') (hdone : c'.done = true) :
    xs.length ≤ c.packets.toNat + 1 - c.i.toNat := by
  induction h with
  | nil => exact Nat.zero_le _
  | @cons c c' xs hnot _ h ih =>
    have hle : c.i.toNat ≤ c.packets.toNat := by
      rw [done, Bool.not_eq_false', decide_eq_true_iff, UInt32.le_iff_toNat_le] at hnot
      exact hnot
    have hmax : c.packets.toNat ≠ 2 ^ 32 - 1 := by
      have hlt := c'.i.toNat_lt
      have hpackets : c'.packets = c.packets := h.packets
      rw [done, Bool.not_eq_true', decide_eq_false_iff_not, UInt32.le_iff_toNat_le, hpackets] at hdone
      omega
    have hnext : (c.advance params).i.toNat = c.i.toNat + 1 := by
      have hlt := c.packets.toNat_lt
      change (c.i + 1).toNat = _
      rw [UInt32.toNat_add]
      have h1 : (1 : UInt32).toNat = 1 := rfl
      omega
    have hlen := ih hdone
    have hpackets : (c.advance params).packets = c.packets := rfl
    rw [hpackets] at hlen
    rw [length_cons]
    omega

theorem Emits.pieces (h : Emits params c xs c') (hdone : c'.done = true) {turns : Nat} (hturns : xs.length ≤ turns) :
    c.pieces params turns = some xs := by
  induction h generalizing turns with
  | nil => exact pieces_done turns hdone
  | cons hnot hle _ ih =>
    cases turns with
    | zero => cases hturns
    | succ turns =>
      have hfalse : ¬ _ = true := Bool.eq_false_iff.mp hnot
      rw [SendCall.pieces, if_neg hfalse, if_neg hle, ih hdone (Nat.le_of_succ_le_succ hturns), map_some]

theorem Emits.callPieces {data : List UInt8} (h : Emits params (start params data) xs c') (hdone : c'.done = true) :
    callPieces params data = some xs := by
  refine h.pieces hdone (Nat.le_trans (h.length_le hdone) ?_)
  have hi : (start params data).i.toNat = 1 := rfl
  have hpackets : (start params data).packets.toNat ≤ data.length + 1 := by
    unfold start
    split
    · have hpos := params.maxPayloadSize_pos
      have hdiv := Nat.div_le_self data.length params.maxPayloadSize
      refine Nat.le_trans (Nat.mod_le _ _) ?_
      split <;> omega
    · exact Nat.le_add_left _ _
  omega

theorem Emits.unfinished (h : Emits params c xs c') (hdone : c'.done = true)
    (hwhole : c.fragmented = false → c.i = c.packets) : Unfinished xs := by
  induction h with
  | nil => trivial
  | @cons c c' xs hnot hle h ih =>
    cases h with
    | nil => trivial
    | @cons _ _ ys hnot' hle' h' =>
      -- behind the last part the loop goes on only if the counter wraps
      have hne : c.i ≠ c.packets := by
        intro hof
        have hmax : c.packets.toNat = 2 ^ 32 - 1 := by
          have hlt := c.packets.toNat_lt
          have hle : (c.i + 1).toNat ≤ c.packets.toNat := by
            rw [done, Bool.not_eq_false', decide_eq_true_iff, UInt32.le_iff_toNat_le] at hnot'
            exact hnot'
          rw [hof, UInt32.toNat_add] at hle
          have h1 : (1 : UInt32).toNat = 1 := rfl
          omega
        have hlt := c'.i.toNat_lt
        have hpackets : c'.packets = c.packets := h'.packets
        rw [done, Bool.not_eq_true', decide_eq_false_iff_not, UInt32.le_iff_toNat_le, hpackets] at hdone
        omega
      have hfrag : c.fragmented = true := by
        cases hfrag : c.fragmented with
        | true => rfl
        | false => exact absurd (hwhole hfrag) hne
      refine ⟨⟨c.i, c.packets, _, _, by rw [piece, if_pos hfrag], hne⟩, ih hdone fun hfalse => ?_⟩
      have htrue : (c.advance params).fragmented = true := hfrag
      rw [htrue] at hfalse
      cases hfalse

end SendCall

namespace Senders

variable {params : Parameters} {s t : Senders} {labels : List SendStep}

def holding (held : Sender → Option (Nat × Message)) : List (Nat × Message) := (held .one).toList ++ (held .two).toList

theorem holding_update_some {held : Sender → Option (Nat × Message)} (w : Sender) (part : Nat × Message)
    (h : held w = none) : (holding (update held w (some part))).Perm (holding held ++ [part]) := by
  unfold holding
  cases w with
  | one =>
    rw [update_self, update_of_ne (by decide), h]
    exact perm_append_comm
  | two =>
    rw [update_self, update_of_ne (by decide), h, toList_none, append_nil]
    exact List.Perm.refl _

theorem holding_update_none {held : Sender → Option (Nat × Message)} (w : Sender) (part : Nat × Message)
    (h : held w = some part) : (holding held).Perm (part :: holding (update held w none)) := by
  unfold holding
  cases w with
  | one =>
    rw [update_self, update_of_ne (by decide), h]
    exact List.Perm.refl _
  | two =>
    rw [update_self, update_of_ne (by decide), h, toList_none, append_nil]
    exact perm_append_comm

/-- What a run draws: the numbers in their order, and the pieces of both calls. -/
structure Drawn (params : Parameters) (s t : Senders) (ds : List Sender) (drawn : List (Nat × Message))
    (xs ys zs : List Piece) :
    Prop where
  one : SendCall.Emits params (s.call .one) xs (t.call .one)
  two : SendCall.Emits params (s.call .two) ys (t.call .two)
  interleaves : Interleaves ds xs ys zs
  carries : List.Forall₂ Carries (drawn.map Prod.snd) zs
  numbers : drawn.map Prod.fst = List.range' s.sn drawn.length
  perm : (t.sent ++ holding t.held).Perm (s.sent ++ holding s.held ++ drawn)

theorem run_drawn (h : run (step params) s labels = some t) :
    ∃ drawn xs ys zs, Drawn params s t (draws labels) drawn xs ys zs := by
  induction labels generalizing s with
  | nil =>
    cases h
    exact ⟨[], [], [], [], .nil _, .nil _, .nil, .nil, rfl, by rw [append_nil]⟩
  | cons l labels ih =>
    obtain ⟨s₁, hstep, hrun⟩ := run_cons_some h
    obtain ⟨drawn, xs, ys, zs, hd⟩ := ih hrun
    cases l with
    | forward w =>
      simp only [step, map_eq_some_iff] at hstep
      obtain ⟨part, hpart, rfl⟩ := hstep
      refine ⟨drawn, xs, ys, zs, hd.one, hd.two, hd.interleaves, hd.carries, hd.numbers, hd.perm.trans ?_⟩
      refine Perm.append_right _ ?_
      rw [append_assoc]
      exact Perm.append_left _ (holding_update_none w part hpart).symm
    | draw w =>
      simp only [step] at hstep
      split at hstep
      · next hcond =>
        obtain ⟨hnone, hdone⟩ := hcond
        rcases SendCall.next_cases params (s.call w) s.sn with ⟨-, hfail⟩ | ⟨hle, m, hsome, hm⟩
        · rw [hfail] at hstep
          cases hstep
        · rw [hsome] at hstep
          cases hstep
          have hperm : (t.sent ++ holding t.held).Perm (s.sent ++ holding s.held ++ (s.sn, m) :: drawn) := by
            refine hd.perm.trans ?_
            have hcat := Perm.append_right drawn (Perm.append_left s.sent (holding_update_some w (s.sn, m) hnone))
            refine hcat.trans ?_
            rw [← append_assoc, append_assoc]
            exact List.Perm.refl _
          have hnumbers : ((s.sn, m) :: drawn).map Prod.fst = range' s.sn ((s.sn, m) :: drawn).length := by
            rw [map_cons, hd.numbers]
            rfl
          cases w with
          | one =>
            have hone : SendCall.Emits params (update s.call .one ((s.call .one).advance params) .one) xs _ := hd.one
            have htwo : SendCall.Emits params (update s.call .one ((s.call .one).advance params) .two) ys _ := hd.two
            exact ⟨(s.sn, m) :: drawn, _, ys, _, .cons hdone hle hone, htwo, .one _ hd.interleaves,
                .cons hm hd.carries, hnumbers, hperm⟩
          | two =>
            have hone : SendCall.Emits params (update s.call .two ((s.call .two).advance params) .one) xs _ := hd.one
            have htwo : SendCall.Emits params (update s.call .two ((s.call .two).advance params) .two) ys _ := hd.two
            exact ⟨(s.sn, m) :: drawn, xs, _, _, hone, .cons hdone hle htwo, .two _ hd.interleaves,
                .cons hm hd.carries, hnumbers, hperm⟩
      · cases hstep

instance : Std.Total Before := ⟨fun x y => Nat.le_total x.1 y.1⟩

instance : IsTrans (Nat × Message) Before := ⟨fun _ _ _ hxy hyz => Nat.le_trans hxy hyz⟩

/-- The parts arrive as they were drawn. -/
theorem insertionSort_eq {sent drawn : List (Nat × Message)} {sn n : Nat} (hperm : sent.Perm drawn)
    (hnumbers : drawn.map Prod.fst = range' sn n) : sent.insertionSort Before = drawn := by
  have hlt : (drawn.map Prod.fst).Pairwise (· < ·) := hnumbers ▸ pairwise_lt_range'
  have hsorted : drawn.Pairwise Before := (pairwise_map.mp hlt).imp fun h => Nat.le_of_lt h
  have hnodup : (drawn.map Prod.fst).Nodup := hlt.imp Nat.ne_of_lt
  refine Perm.eq_of_pairwise ?_ (pairwise_insertionSort Before sent) hsorted
    ((perm_insertionSort Before sent).trans hperm)
  intro x y hx hy hxy hyx
  have hx' : x ∈ drawn := ((perm_insertionSort Before sent).trans hperm).mem_iff.mp hx
  exact inj_on_of_nodup_map hnodup hx' hy (Nat.le_antisymm hxy hyx)

end Senders

/-! ## Both messages -/

section Both

variable {params : Parameters} {ds : List Sender} {xs ys zs : List Piece}

def OpensFirst (xs : List Piece) : Prop := ∀ x ∈ xs.head?, x.Opens

/-- After a first part the other thread has to wait for the last one. -/
theorem rest_sequential {buf : List UInt8 × Nat} (h : Interleaves ds xs ys zs) (hne : xs ≠ []) (hun : Unfinished xs)
    (hopens : OpensFirst ys) (hgather : gatherAll (some buf) zs ≠ none) :
    ds = replicate xs.length .one ++ replicate ys.length .two := by
  induction xs generalizing ds zs buf with
  | nil => exact absurd rfl hne
  | cons x xs ih =>
    cases h with
    | two y h => exact absurd (by rw [gatherAll, gather_opens (hopens y rfl), bind_none]) hgather
    | @one ds _ _ zs _ h =>
      cases xs with
      | nil =>
        obtain ⟨rfl, -⟩ := h.nil_left
        rfl
      | cons x' xs =>
        obtain ⟨⟨num, of, totalSize, data, rfl, hof⟩, hun'⟩ := hun
        obtain ⟨newData, capacity⟩ := buf
        simp only [gatherAll, gather, if_neg hof] at hgather
        split at hgather
        · exact absurd rfl hgather
        · split at hgather
          · exact absurd rfl hgather
          · have hrest : gatherAll (some (newData ++ data, capacity)) zs ≠ none := by
              intro hnone
              rw [bind_some, hnone] at hgather
              exact hgather rfl
            rw [ih h (cons_ne_nil _ _) hun' hrest]
            rfl

/-- Parts of one message that are not adjacent are not put together. -/
theorem sequential_of_one (h : Interleaves (.one :: ds) xs ys zs) (hun : Unfinished xs) (hxs : OpensFirst xs)
    (hys : OpensFirst ys) (hgather : gatherAll none zs ≠ none) : Sequential (.one :: ds) := by
  cases h with
  | @one _ xs _ zs x h =>
    cases xs with
    | nil =>
      obtain ⟨rfl, -⟩ := h.nil_left
      exact ⟨.one, 1, ys.length, rfl⟩
    | cons x' xs =>
      obtain ⟨⟨num, of, totalSize, data, rfl, hof⟩, hun'⟩ := hun
      have hnum : num = 1 := hxs _ rfl
      subst hnum
      have hrest : gatherAll (some (data, max data.length totalSize.toNat)) zs ≠ none := by
        intro hnone
        simp only [gatherAll, gather, ne_eq, not_true_eq_false, if_false, bind_some, hnone] at hgather
        exact hgather rfl
      refine ⟨.one, (x' :: xs).length + 1, ys.length, ?_⟩
      rw [rest_sequential h (cons_ne_nil _ _) hun' hys hrest]
      rfl

theorem sequential_of_gather (h : Interleaves ds xs ys zs) (hunx : Unfinished xs) (huny : Unfinished ys)
    (hxs : OpensFirst xs) (hys : OpensFirst ys) (hgather : gatherAll none zs ≠ none) : Sequential ds := by
  cases ds with
  | nil => exact ⟨.one, 0, 0, rfl⟩
  | cons w ds =>
    cases w with
    | one => exact sequential_of_one h hunx hxs hys hgather
    | two =>
      have hswap := h.swap
      refine Sequential.map_other ?_
      exact sequential_of_one hswap huny hys hxs hgather

theorem callPieces_opensFirst {data : List UInt8} (h : callPieces params data = some xs) : OpensFirst xs := by
  cases xs with
  | nil => exact fun x hx => absurd hx (not_mem_none x)
  | cons x xs =>
    intro y hy
    cases hy
    exact callPieces_opens h

theorem pieces_of_sequential (ps : Sender → List Piece) (h : Interleaves ds (ps .one) (ps .two) zs)
    (hseq : Sequential ds) :
    ∃ t : Sender, zs = ps t ++ ps t.other := by
  obtain ⟨t, n, k, rfl⟩ := hseq
  cases t with
  | one => exact ⟨.one, h.of_replicate⟩
  | two =>
    have hswap := h.swap
    rw [map_append, map_replicate, map_replicate] at hswap
    exact ⟨.two, hswap.of_replicate⟩

theorem start_unfinished {data : List UInt8} {c : SendCall}
    (h : SendCall.Emits params (SendCall.start params data) xs c)
    (hdone : c.done = true) : Unfinished xs := by
  refine h.unfinished hdone fun hfrag => ?_
  have hsmall : ¬ params.maxPayloadSize < data.length := of_decide_eq_false hfrag
  unfold SendCall.start
  simp only [if_neg hsmall]

end Both

open Senders in
/-- **Concurrent senders.** Both messages arrive if and only if each of them fits and no thread
draws a number between two numbers of the other one. -/
theorem concurrent_iff (params : Parameters) (source destination : Address) (data : Sender → Payload)
    {labels : List SendStep} {s : Senders} (h : run (step params) (start params data) labels = some s)
    (hcomplete : s.complete) :
    Intact source destination data s ↔ (∀ t, Fits params (data t).bytes.length) ∧ Sequential (draws labels) := by
  obtain ⟨drawn, xs, ys, zs, hd⟩ := run_drawn h
  have hholding : holding s.held = [] := by
    rw [holding, (hcomplete .one).2, (hcomplete .two).2]
    rfl
  have hperm := hd.perm
  rw [hholding, append_nil] at hperm
  have harrived : s.arrived = drawn.map Prod.snd := congrArg _ (insertionSort_eq hperm hd.numbers)
  let ps : Sender → List Piece := fun t => t.casesOn xs ys
  have hps : ∀ t, callPieces params (data t).bytes = some (ps t) := by
    intro t
    cases t with
    | one => exact hd.one.callPieces (hcomplete .one).1
    | two => exact hd.two.callPieces (hcomplete .two).1
  have hall : ∀ t : Sender, allPieces params [data t, data t.other] = some (ps t ++ ps t.other) := by
    intro t
    simp only [allPieces, hps, bind_some, map_some, append_nil]
  have hrecv := recvAll_gather source destination hd.carries Reassemble.start
  have hstart : Reassemble.start.map source = none := rfl
  rw [← harrived, hstart] at hrecv
  constructor
  · rintro ⟨r, out, hout, t, hcontents⟩
    cases hgather : gatherAll none zs with
    | none =>
      simp only [hgather] at hrecv
      rw [hrecv] at hout
      cases hout
    | some so =>
      simp only [hgather] at hrecv
      obtain ⟨r', ms, hms, -, hmap⟩ := hrecv
      obtain ⟨-, rfl⟩ := Prod.mk.inj (some.inj (hout.symm.trans hms))
      have hlen := congrArg length (hmap.symm.trans hcontents)
      rw [length_map] at hlen
      have hseq : Sequential (draws labels) := by
        refine sequential_of_gather hd.interleaves (start_unfinished hd.one (hcomplete .one).1)
          (start_unfinished hd.two (hcomplete .two).1) (callPieces_opensFirst (hps .one))
            (callPieces_opensFirst (hps .two)) ?_
        rw [hgather]
        exact some_ne_none _
      obtain ⟨w, hw⟩ := pieces_of_sequential ps hd.interleaves hseq
      have hfits := fits_of_length (hall w) (hw ▸ hgather) hlen
      refine ⟨fun t => ?_, hseq⟩
      by_cases ht : t = w
      · exact hfits _ (ht ▸ mem_cons_self)
      · have hother : t = w.other := by
          cases t <;> cases w <;> first | rfl | exact absurd rfl ht
        exact hfits _ (hother ▸ mem_cons_of_mem _ (mem_singleton_self _))
  · rintro ⟨hfits, hseq⟩
    obtain ⟨w, hw⟩ := pieces_of_sequential ps hd.interleaves hseq
    obtain ⟨xs', hxs', hgather⟩ := gatherAll_of_fits params [data w, data w.other] (by
      intro payload hmem
      rcases mem_cons.mp hmem with rfl | hmem
      · exact hfits w
      · rw [mem_singleton.mp hmem]
        exact hfits w.other)
    rw [hall w] at hxs'
    cases hxs'
    rw [hw, hgather] at hrecv
    obtain ⟨r, ms, hms, -, hmap⟩ := hrecv
    exact ⟨r, ms, hms, w, hmap⟩

def threeBytes : Sender → Payload
  | .one => ⟨[1, 2, 3], by decide⟩
  | .two => ⟨[4, 5, 6], by decide⟩

/-- Each thread draws its two numbers at a time. -/
def inTurn : List SendStep :=
  [.draw .one, .forward .one, .draw .one, .forward .one, .draw .two, .forward .two, .draw .two, .forward .two]

open Senders in
theorem concurrent_iff_in_turn : ∃ s, run (step tinyParameters) (start tinyParameters threeBytes) inTurn = some s ∧
    Intact ⟨1, 1⟩ ⟨2, 2⟩ threeBytes s := by
  refine ⟨_, rfl, ?_⟩
  refine (@concurrent_iff tinyParameters ⟨1, 1⟩ ⟨2, 2⟩ threeBytes inTurn _ rfl ?_).mpr ⟨?_, .one, 2, 2, rfl⟩
  · intro t
    cases t <;> exact ⟨by decide, rfl⟩
  · intro t
    cases t <;> decide

/-- The second thread draws a number between those of the first one. -/
def inBetween : List SendStep :=
  [.draw .one, .draw .two, .forward .one, .forward .two, .draw .one, .draw .two, .forward .one, .forward .two]

open Senders in
theorem interleaved_parts_abort : ∃ s, run (step tinyParameters) (start tinyParameters threeBytes) inBetween = some s ∧
    s.complete ∧ ¬ Intact ⟨1, 1⟩ ⟨2, 2⟩ threeBytes s := by
  obtain ⟨s, hs⟩ : ∃ s, run (step tinyParameters) (start tinyParameters threeBytes) inBetween = some s := ⟨_, rfl⟩
  have hone : ((run (step tinyParameters) (start tinyParameters threeBytes) inBetween).map fun s =>
      ((s.call .one).done, (s.held .one).isNone, (s.call .two).done, (s.held .two).isNone)) =
        some (true, true, true, true) := by
    decide
  have hnone : ((run (step tinyParameters) (start tinyParameters threeBytes) inBetween).map fun s =>
      (Reassemble.start.recvAll (s.arrived.map (deliver ⟨1, 1⟩ ⟨2, 2⟩))).isSome) = some false := by decide
  rw [hs, map_some, some.injEq] at hone hnone
  refine ⟨s, hs, ?_, ?_⟩
  · simp only [Prod.mk.injEq, isNone_iff_eq_none] at hone
    intro t
    cases t with
    | one => exact ⟨hone.1, hone.2.1⟩
    | two => exact ⟨hone.2.2.1, hone.2.2.2⟩
  · rintro ⟨r, out, hrecv, -⟩
    rw [hrecv] at hnone
    cases hnone

end Atcd.Rmcast
