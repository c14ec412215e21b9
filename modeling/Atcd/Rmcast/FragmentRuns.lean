import Atcd.Core.Run
import Atcd.Rmcast.Fragment
/-!
# Fragmentation over runs

Results:
* `transparent_iff`: the messages of one sender arrive as they were sent if and only if each of
  them fits: it needs no parts, or its last part is not empty and the parts can be counted.
-/
namespace Atcd.Rmcast

open Atcd.Core List Option SendCall Rmcast.Message UInt32

variable {params : Parameters}

theorem Parameters.maxPayloadSize_pos : 0 < params.maxPayloadSize :=
  Nat.sub_pos_of_lt params.service_lt

/-! ## Pieces

What reassembly reads of a message. -/

inductive Piece where
  | whole (data : List UInt8)
  | part (num of : UInt32) (totalSize : UInt64) (data : List UInt8)

namespace Piece

def data : Piece → List UInt8
  | whole data => data
  | part _ _ _ data => data

def header : Piece → Option (UInt32 × UInt32 × UInt64)
  | whole _ => none
  | part num of totalSize _ => some (num, of, totalSize)

/-- No unfinished message may be there when it arrives. -/
def Opens : Piece → Prop
  | whole _ => True
  | part num _ _ _ => num = 1

end Piece

/-- A message, before the link adds the addresses. -/
structure Carries (m : Message) (x : Piece) : Prop where
  source : m.find Profile.fromId = none
  destination : m.find Profile.toId = none
  data : m.data = some x.data
  part : m.part = x.header

/-- The receiver, for one source. -/
def gather (unfinished : Option (List UInt8 × Nat)) : Piece → Option (Option (List UInt8 × Nat) × List (List UInt8))
  | .whole data => if unfinished = none then some (none, [data]) else none
  | .part num of totalSize data =>
    match unfinished with
    | none => if num ≠ 1 then some (none, []) else some (some (data, max data.length totalSize.toNat), [])
    | some (newData, capacity) =>
      if num = 1 then none
      else if capacity < newData.length + data.length then none
      else if num = of then
        if totalSize.toNat ≠ (newData ++ data).length then none else some (none, [newData ++ data])
      else some (some (newData ++ data, capacity), [])

def gatherAll : Option (List UInt8 × Nat) → List Piece → Option (Option (List UInt8 × Nat) × List (List UInt8))
  | s, [] => some (s, [])
  | s, x :: rest => (gather s x).bind fun (s, out) => (gatherAll s rest).map fun (s, out') => (s, out ++ out')

def contents (m : Message) : Option Address × Option (List UInt8) := (m.source, m.data)

section Receiver

variable {source destination : Address} {m : Message} {x : Piece} {r : Reassemble}

theorem deliver_find (source destination : Address) (h : Carries m x) (id : UInt16) :
    (deliver source destination m).find id =
    if id = Profile.fromId then some (.fromAddress source)
    else if id = Profile.toId then some (.toAddress destination) else m.find id := by
  have hto : (m.add (.fromAddress source)).find (Profile.toAddress destination).id = none := by
    rw [find_add h.source]
    exact h.destination
  rw [deliver, find_add hto, find_add h.source]
  by_cases h₁ : id = Profile.fromId
  · subst h₁
    rfl
  · by_cases h₂ : id = Profile.toId
    · subst h₂
      rfl
    · have hne : (Profile.toAddress destination).id ≠ id := fun he => h₂ he.symm
      have hne' : (Profile.fromAddress source).id ≠ id := fun he => h₁ he.symm
      rw [if_neg hne, if_neg hne', if_neg h₁, if_neg h₂]

/-- **Reception.** The receiver does with a message what it does with its piece. -/
theorem recv_gather (source destination : Address) (r : Reassemble) (h : Carries m x) :
    match gather (r.map source) x with
    | none => r.recv (deliver source destination m) = none
    | some (s, out) =>
      ∃ r' ms, r.recv (deliver source destination m) = some (r', ms) ∧ r'.map source = s ∧
        ms.map contents = out.map fun data => (some source, some data) := by
  have hfind := deliver_find source destination h
  have hsource : (deliver source destination m).source = some source := by
    unfold Message.source
    rw [hfind]
    rfl
  have hdestination : (deliver source destination m).destination = some destination := by
    unfold Message.destination
    rw [hfind]
    rfl
  have hdata : (deliver source destination m).data = some x.data := by
    rw [← h.data]
    unfold data
    rw [hfind]
    rfl
  have hpart : (deliver source destination m).part = x.header := by
    rw [← h.part]
    unfold part
    rw [hfind]
    rfl
  cases x with
  | whole data =>
    have hdata' : (deliver source destination m).data = some data := hdata
    have hpart' : (deliver source destination m).part = none := hpart
    unfold Reassemble.recv
    simp only [hsource, hdata', hpart', bind_some]
    cases hs : r.map source with
    | none =>
      refine ⟨r, _, rfl, hs, ?_⟩
      rw [map_singleton, map_singleton, contents, hsource, hdata']
    | some unfinished => simp [gather]
  | part num of totalSize data =>
    have hdata' : (deliver source destination m).data = some data := hdata
    have hpart' : (deliver source destination m).part = some (num, of, totalSize) := hpart
    unfold Reassemble.recv
    simp only [hsource, hdata', hpart', hdestination, bind_some, map_some]
    cases hs : r.map source with
    | none =>
      simp only [gather]
      by_cases hnum : num = 1
      · simp [hnum, Reassemble.bind]
      · simp [hnum, hs]
    | some unfinished =>
      obtain ⟨newData, capacity⟩ := unfinished
      simp only [gather]
      by_cases hnum : num = 1
      · simp only [if_pos hnum]
      · by_cases hcap : capacity < newData.length + data.length
        · simp only [if_neg hnum, if_pos hcap]
        · by_cases hof : num = of
          · by_cases htotal : totalSize.toNat ≠ (newData ++ data).length
            · simp only [if_neg hnum, if_neg hcap, if_pos hof, if_pos htotal]
            · simp only [if_neg hnum, if_neg hcap, if_pos hof, if_neg htotal]
              exact ⟨_, _, rfl, Function.update_self _ _ _, rfl⟩
          · simp only [if_neg hnum, if_neg hcap, if_neg hof]
            exact ⟨_, _, rfl, Function.update_self _ _ _, rfl⟩

theorem recvAll_gather (source destination : Address) {ms : List Message} {xs : List Piece}
    (h : List.Forall₂ Carries ms xs) (r : Reassemble) :
    match gatherAll (r.map source) xs with
    | none => r.recvAll (ms.map (deliver source destination)) = none
    | some (s, out) =>
      ∃ r' ms', r.recvAll (ms.map (deliver source destination)) = some (r', ms') ∧ r'.map source = s ∧
        ms'.map contents = out.map fun data => (some source, some data) := by
  induction h generalizing r with
  | nil => exact ⟨r, [], rfl, rfl, rfl⟩
  | @cons m x ms xs hm _ ih =>
    have hrecv := recv_gather source destination r hm
    simp only [gatherAll, map_cons, Reassemble.recvAll]
    cases hx : gather (r.map source) x with
    | none =>
      simp only [hx] at hrecv
      simp only [hrecv, bind_none]
    | some so =>
      obtain ⟨s, out⟩ := so
      simp only [hx] at hrecv
      obtain ⟨r₁, ms₁, heq, rfl, hout⟩ := hrecv
      have hrest := ih r₁
      simp only [heq, bind_some]
      cases hxs : gatherAll (r₁.map source) xs with
      | none =>
        simp only [hxs] at hrest
        simp only [hrest, map_none]
      | some so =>
        obtain ⟨s₂, out₂⟩ := so
        simp only [hxs] at hrest
        obtain ⟨r₂, ms₂, heq₂, rfl, hout₂⟩ := hrest
        simp only [heq₂, map_some]
        exact ⟨r₂, ms₁ ++ ms₂, rfl, rfl, by rw [map_append, map_append, hout, hout₂]⟩

end Receiver

theorem gatherAll_append (s : Option (List UInt8 × Nat)) (xs ys : List Piece) :
    gatherAll s (xs ++ ys) = (gatherAll s xs).bind fun (s, out) =>
      (gatherAll s ys).map fun (s, out') => (s, out ++ out') := by
  induction xs generalizing s with
  | nil =>
    simp only [nil_append, gatherAll, bind_some]
    cases gatherAll s ys <;> rfl
  | cons x xs ih =>
    simp only [cons_append, gatherAll]
    cases hx : gather s x with
    | none => rfl
    | some so =>
      obtain ⟨s₁, out₁⟩ := so
      simp only [bind_some, ih]
      cases hxs : gatherAll s₁ xs with
      | none => rfl
      | some so =>
        obtain ⟨s₂, out₂⟩ := so
        simp only [map_some, bind_some]
        cases gatherAll s₂ ys with
        | none => rfl
        | some so => simp only [map_some, append_assoc]

/-! ## The pieces of a call -/

namespace SendCall

variable (params)

def piece (c : SendCall) : Piece :=
  if c.fragmented then .part c.i c.packets (.ofNat c.size) (c.p.take (c.partSize params)) else .whole c.p

def advance (c : SendCall) : SendCall :=
  { c with
    i := c.i + 1
    p := c.p.drop (c.partSize params) }

/-- All pieces, if the loop ends within these turns. -/
def pieces : Nat → SendCall → Option (List Piece)
  | 0, c => if c.done then some [] else none
  | turns + 1, c =>
    if c.done then some []
    else if c.p.length < c.partSize params then none
    else (pieces turns (c.advance params)).map (c.piece params :: ·)

variable {params} {c : SendCall}

theorem next_cases (params : Parameters) (c : SendCall) (sn : Nat) :
    (c.p.length < c.partSize params ∧ c.next params sn = none) ∨
      ¬ c.p.length < c.partSize params ∧
        ∃ m, c.next params sn = some (m, c.advance params) ∧ Carries m (c.piece params) := by
  by_cases hlt : c.p.length < c.partSize params
  · exact .inl ⟨hlt, by simp only [next, if_pos hlt]⟩
  · refine .inr ⟨hlt, ?_⟩
    simp only [next, if_neg hlt]
    refine ⟨_, rfl, ?_⟩
    unfold piece
    cases c.fragmented with
    | true =>
      simp only [if_true]
      have hdata : ((empty.add (.sn (.ofNat sn))).add (.part c.i c.packets (.ofNat c.size))).find
          (Profile.data (c.p.take (c.partSize params))).id = none := by
        rfl
      have hfind := fun id => find_add hdata id
      constructor
      · rw [hfind]
        rfl
      · rw [hfind]
        rfl
      · rw [data, hfind]
        rfl
      · rw [part, hfind]
        rfl
    | false =>
      simp only [Bool.false_eq_true, if_false]
      have hsn' : (empty.add (.data c.p)).find (Profile.sn (UInt64.ofNat sn)).id = none := by
        rfl
      have hfind := fun id => find_add hsn' id
      constructor
      · rw [hfind]
        rfl
      · rw [hfind]
        rfl
      · rw [data, hfind]
        rfl
      · rw [part, hfind]
        rfl

theorem run_pieces (params : Parameters) (turns : Nat) (c : SendCall) (sn : Nat) :
    match c.pieces params turns with
    | none => c.run params turns sn = none
    | some xs => ∃ ms, c.run params turns sn = some ms ∧ Forall₂ Carries ms xs := by
  induction turns generalizing c sn with
  | zero =>
    unfold pieces run
    cases c.done with
    | true => exact ⟨[], rfl, .nil⟩
    | false => rfl
  | succ turns ih =>
    unfold pieces run
    cases c.done with
    | true => exact ⟨[], rfl, .nil⟩
    | false =>
      simp only [Bool.false_eq_true, if_false]
      rcases next_cases params c sn with ⟨hlt, hnone⟩ | ⟨hle, m, hsome, hm⟩
      · simp only [if_pos hlt, hnone, bind_none]
      · have hrest := ih (c.advance params) (sn + 1)
        simp only [if_neg hle, hsome, bind_some]
        cases hxs : (c.advance params).pieces params turns with
        | none =>
          simp only [hxs] at hrest
          simp only [hrest, map_none]
        | some xs =>
          simp only [hxs] at hrest
          obtain ⟨ms, hms, hcarries⟩ := hrest
          simp only [hms, map_some]
          exact ⟨m :: ms, rfl, .cons hm hcarries⟩

theorem pieces_done (turns : Nat) (h : c.done = true) : c.pieces params turns = some [] := by
  cases turns <;> rw [pieces, if_pos h]

/-- The loop variable never passes the largest number of parts. -/
theorem pieces_endless (turns : Nat) (h : c.packets.toNat = 2 ^ 32 - 1) : c.pieces params turns = none := by
  have hdone : ∀ c : SendCall, c.packets.toNat = 2 ^ 32 - 1 → ¬ c.done = true := by
    intro c hc
    have hlt := c.i.toNat_lt
    have hle : c.i ≤ c.packets := by
      rw [le_iff_toNat_le]
      omega
    simp [done, hle]
  induction turns generalizing c with
  | zero => rw [pieces, if_neg (hdone c h)]
  | succ turns ih =>
    have hnone : (c.advance params).pieces params turns = none := ih h
    rw [pieces, if_neg (hdone c h), hnone]
    split <;> rfl

end SendCall

/-! ## One call -/

/-- There are no parts, or the last one is not empty and the parts can be counted. -/
def Fits (params : Parameters) (size : Nat) : Prop :=
  size ≤ params.maxPayloadSize ∨ size % params.maxPayloadSize ≠ 0 ∧ size / params.maxPayloadSize + 1 < 2 ^ 32 - 1

instance (params : Parameters) (size : Nat) : Decidable (Fits params size) := inferInstanceAs (Decidable (_ ∨ _ ∧ _))

namespace SendCall

variable {c : SendCall} {data : List UInt8} {j k : Nat}

/-- **The loop**, from the second part on: what was gathered are the first parts. -/
theorem gather_rest (params : Parameters) (c : SendCall) (j k : Nat) (turns : Nat) (hfrag : c.fragmented = true)
    (hk : c.packets.toNat = k) (hi : c.i.toNat = j + 1)
    (hj : 0 < j) (hjk : j < k) (hmax : k < 2 ^ 32 - 1) (hp : c.p = data.drop (j * params.maxPayloadSize))
    (hsize : c.size = data.length) (hlt : data.length < 2 ^ 64)
    (hle : (k - 1) * params.maxPayloadSize + data.length % params.maxPayloadSize ≤ data.length)
    (hturns : k - j ≤ turns) :
    ∃ xs, c.pieces params turns = some xs ∧
      gatherAll (some (data.take (j * params.maxPayloadSize), data.length)) xs =
        if (k - 1) * params.maxPayloadSize + data.length % params.maxPayloadSize = data.length then some (none, [data])
        else none := by
  induction turns generalizing c j with
  | zero => omega
  | succ turns ih =>
    have hdone : ¬ c.done = true := by
      have hle' : c.i ≤ c.packets := by
        rw [le_iff_toNat_le]
        omega
      simp [done, hle']
    have hone : c.i ≠ 1 := by
      intro h
      rw [h] at hi
      have h1 : (1 : UInt32).toNat = 1 := rfl
      omega
    have hnext : (c.advance params).i.toNat = j + 1 + 1 := by
      change (c.i + 1).toNat = _
      rw [UInt32.toNat_add, hi]
      have h1 : (1 : UInt32).toNat = 1 := rfl
      omega
    have htotal : (UInt64.ofNat data.length).toNat = data.length := by
      rw [UInt64.toNat_ofNat']
      omega
    rw [pieces, if_neg hdone]
    by_cases hlast : j + 1 = k
    · have hof : c.i = c.packets := UInt32.toNat_inj.mp (by omega)
      have hs : c.partSize params = data.length % params.maxPayloadSize := by
        rw [partSize, if_pos hfrag, if_pos hof, hsize]
      have hj' : k - 1 = j := by omega
      rw [hj'] at hle ⊢
      have hshort : ¬ c.p.length < c.partSize params := by
        rw [hs, hp, length_drop]
        omega
      have hrest : (c.advance params).pieces params turns = some [] := by
        refine pieces_done turns ?_
        have hgt : ¬ c.i + 1 ≤ c.packets := by
          rw [le_iff_toNat_le]
          change ¬ (c.advance params).i.toNat ≤ _
          omega
        simp [done, advance, hgt]
      have htake : data.take (j * params.maxPayloadSize) ++ c.p.take (c.partSize params) =
          data.take (j * params.maxPayloadSize + data.length % params.maxPayloadSize) := by
        rw [hs, hp, ← take_add]
      have hlen' : (data.take (j * params.maxPayloadSize) ++ c.p.take (c.partSize params)).length =
          j * params.maxPayloadSize + data.length % params.maxPayloadSize := by
        rw [htake, length_take]
        omega
      have hcap :
          ¬ data.length < (data.take (j * params.maxPayloadSize)).length + (c.p.take (c.partSize params)).length := by
        rw [← length_append, hlen']
        omega
      refine ⟨[c.piece params], by rw [if_neg hshort, hrest, map_some], ?_⟩
      simp only [gatherAll, piece, if_pos hfrag, gather, if_neg hone, if_neg hcap, if_pos hof, hsize, htotal, hlen']
      by_cases heq : j * params.maxPayloadSize + data.length % params.maxPayloadSize = data.length
      · rw [if_neg (not_not.mpr heq.symm), if_pos heq, htake, heq, take_length]
        rfl
      · rw [if_pos (fun h => heq h.symm), if_neg heq]
        rfl
    · have hof : c.i ≠ c.packets := by
        intro h
        rw [h] at hi
        omega
      have hs : c.partSize params = params.maxPayloadSize := by rw [partSize, if_pos hfrag, if_neg hof]
      have hmul' : (j + 1) * params.maxPayloadSize ≤ (k - 1) * params.maxPayloadSize :=
        Nat.mul_le_mul_right _ (by omega)
      have hsucc : (j + 1) * params.maxPayloadSize = j * params.maxPayloadSize + params.maxPayloadSize :=
        Nat.succ_mul _ _
      have hshort : ¬ c.p.length < c.partSize params := by
        rw [hs, hp, length_drop]
        omega
      have htake : data.take (j * params.maxPayloadSize) ++ c.p.take (c.partSize params) =
          data.take ((j + 1) * params.maxPayloadSize) := by
        rw [hs, hp, ← take_add, hsucc]
      have hcap :
          ¬ data.length < (data.take (j * params.maxPayloadSize)).length + (c.p.take (c.partSize params)).length := by
        rw [← length_append, htake, length_take]
        omega
      have hdrop : (c.advance params).p = data.drop ((j + 1) * params.maxPayloadSize) := by
        change c.p.drop (c.partSize params) = _
        rw [hs, hp, drop_drop, hsucc]
      obtain ⟨xs, hxs, hgather⟩ :=
        ih (c := c.advance params) (j := j + 1) hfrag hk hnext (Nat.succ_pos j) (by omega) hdrop
        hsize (by omega)
      refine ⟨c.piece params :: xs, by rw [if_neg hshort, hxs, map_some], ?_⟩
      simp only [gatherAll, piece, if_pos hfrag, gather, if_neg hone, if_neg hcap, if_neg hof, htake, bind_some,
          hgather]
      split <;> rfl

end SendCall

/-- What becomes of the pieces of a call. -/
inductive Outcome (params : Parameters) (data : List UInt8) : Option (List Piece) → Prop where
  | fits {xs : List Piece} (h : Fits params data.length) (hgather : gatherAll none xs = some (none, [data])) :
      Outcome params data (some xs)
  | nothing (h : ¬ Fits params data.length) : Outcome params data (some [])
  | single {x : Piece} {buf : List UInt8 × Nat} (h : ¬ Fits params data.length)
      (hgather : gather none x = some (some buf, [])) : Outcome params data (some [x])
  | failed {xs : List Piece} (h : ¬ Fits params data.length) (hgather : gatherAll none xs = none) :
      Outcome params data (some xs)
  | endless (h : ¬ Fits params data.length) : Outcome params data none

def callPieces (params : Parameters) (data : List UInt8) : Option (List Piece) :=
  (SendCall.start params data).pieces params (data.length + 1)

section Numbers

variable {size mps k : Nat}

def partsOf (size mps : Nat) : Nat := size / mps + if size % mps = 0 then 0 else 1

theorem pred_le (hk : k ≤ partsOf size mps) : k - 1 ≤ size / mps := by
  unfold partsOf at hk
  generalize size / mps = q at hk ⊢
  split at hk <;> omega

theorem pred_mul_le (hk : k ≤ partsOf size mps) : (k - 1) * mps + size % mps ≤ size := by
  have hmul : (k - 1) * mps ≤ size / mps * mps := Nat.mul_le_mul_right _ (pred_le hk)
  have hdiv : size / mps * mps + size % mps = size := Nat.div_add_mod' size mps
  omega

theorem pred_mul_eq (hpos : 0 < mps) : (k - 1) * mps + size % mps = size ↔ k - 1 = size / mps := by
  have hdiv : size / mps * mps + size % mps = size := Nat.div_add_mod' size mps
  constructor
  · intro h
    have hmul : (k - 1) * mps = size / mps * mps := by omega
    exact Nat.eq_of_mul_eq_mul_right hpos hmul
  · intro h
    rw [h, hdiv]

/-- The counter of the parts is right and the last part is not empty, or the parts do not
add up. -/
theorem fits_iff (hlt : params.maxPayloadSize < size) (hmax : partsOf size params.maxPayloadSize % 2 ^ 32 < 2 ^ 32 - 1)
    (hpos : 0 < partsOf size params.maxPayloadSize % 2 ^ 32) :
    Fits params size ↔ partsOf size params.maxPayloadSize % 2 ^ 32 - 1 = size / params.maxPayloadSize := by
  have hdiv : 0 < size / params.maxPayloadSize := Nat.div_pos (Nat.le_of_lt hlt) params.maxPayloadSize_pos
  unfold Fits
  unfold partsOf at hmax hpos ⊢
  by_cases hr : size % params.maxPayloadSize = 0
  · simp only [hr, if_true] at hmax hpos ⊢
    omega
  · simp only [if_neg hr] at hmax hpos ⊢
    omega

end Numbers

/-- **One call.** -/
theorem outcome (params : Parameters) (data : Payload) : Outcome params data.bytes (callPieces params data.bytes) := by
  have hpos := params.maxPayloadSize_pos
  unfold callPieces
  by_cases hsmall : data.bytes.length ≤ params.maxPayloadSize
  · have hstart : start params data.bytes = ⟨false, 1, 1, data.bytes.length, data.bytes⟩ := by
      unfold start
      simp [Nat.not_lt.mpr hsmall]
    have hpieces : (start params data.bytes).pieces params (data.bytes.length + 1) = some [.whole data.bytes] := by
      have hdone : (advance params ⟨false, 1, 1, data.bytes.length, data.bytes⟩).done = true := rfl
      have hdone' : ¬ done ⟨false, 1, 1, data.bytes.length, data.bytes⟩ = true := by
        simp [done]
      have hshort : ¬ data.bytes.length < partSize params ⟨false, 1, 1, data.bytes.length, data.bytes⟩ :=
        Nat.lt_irrefl _
      rw [hstart, pieces, if_neg hdone', if_neg hshort, pieces_done _ hdone]
      rfl
    rw [hpieces]
    exact .fits (.inl hsmall) rfl
  · have hlarge := Nat.not_le.mp hsmall
    have hstart : start params data.bytes = ⟨true, 1, .ofNat (partsOf data.bytes.length params.maxPayloadSize),
        data.bytes.length, data.bytes⟩ := by
      unfold start
      simp [hlarge, partsOf]
    rw [hstart]
    generalize hk : partsOf data.bytes.length params.maxPayloadSize % 2 ^ 32 = k
    have hpackets : (ofNat (partsOf data.bytes.length params.maxPayloadSize)).toNat = k := by
      rw [toNat_ofNat', hk]
    have hkle : k ≤ partsOf data.bytes.length params.maxPayloadSize := hk ▸ Nat.mod_le _ _
    have hdiv : 0 < data.bytes.length / params.maxPayloadSize := Nat.div_pos (Nat.le_of_lt hlarge) hpos
    by_cases hmax : k = 2 ^ 32 - 1
    · rw [pieces_endless _ (hpackets.trans hmax)]
      refine .endless ?_
      rintro (h | ⟨h, hcount⟩)
      · omega
      · unfold partsOf at hk
        rw [if_neg h] at hk
        omega
    · by_cases hzero : k = 0
      · have hdone : done ⟨true, 1, .ofNat (partsOf data.bytes.length params.maxPayloadSize),
            data.bytes.length, data.bytes⟩ = true := by
          have hgt : ¬ (1 : UInt32) ≤ .ofNat (partsOf data.bytes.length params.maxPayloadSize) := by
            rw [le_iff_toNat_le, hpackets, hzero]
            decide
          simp [done, hgt]
        rw [pieces_done _ hdone]
        refine .nothing ?_
        rintro (h | ⟨h, hcount⟩)
        · omega
        · unfold partsOf at hk
          rw [if_neg h] at hk
          omega
      · have hiff := fits_iff hlarge (by omega) (by omega)
        rw [hk] at hiff
        have hle := pred_mul_le hkle
        have hpred := pred_le hkle
        have hdone : ¬ done ⟨true, 1, .ofNat (partsOf data.bytes.length params.maxPayloadSize),
            data.bytes.length, data.bytes⟩ = true := by
          have hge : (1 : UInt32) ≤ .ofNat (partsOf data.bytes.length params.maxPayloadSize) := by
            rw [le_iff_toNat_le, hpackets]
            have h1 : (1 : UInt32).toNat = 1 := rfl
            omega
          simp [done, hge]
        have htotal : (UInt64.ofNat data.bytes.length).toNat = data.bytes.length := by
          exact Nat.mod_eq_of_lt data.lt
        generalize hc :
            (⟨true, 1, .ofNat (partsOf data.bytes.length params.maxPayloadSize), data.bytes.length, data.bytes⟩ :
          SendCall) = c at hdone ⊢
        have hfrag : c.fragmented = true := by rw [← hc]
        have hi : c.i = 1 := by rw [← hc]
        have hcpackets : c.packets.toNat = k := by rw [← hc, hpackets]
        have hsize : c.size = data.bytes.length := by rw [← hc]
        have hp : c.p = data.bytes := by rw [← hc]
        have hnext : (c.advance params).i.toNat = 1 + 1 := by
          change (c.i + 1).toNat = _
          rw [hi]
          rfl
        rw [pieces, if_neg hdone]
        by_cases hone : k = 1
        · have hof : c.i = c.packets := UInt32.toNat_inj.mp (by rw [hi, hcpackets, hone]; rfl)
          have hs : c.partSize params = data.bytes.length % params.maxPayloadSize := by
            rw [partSize, if_pos hfrag, if_pos hof, hsize]
          have hshort : ¬ c.p.length < c.partSize params := by
            rw [hs, hp]
            exact Nat.not_lt.mpr (Nat.mod_le _ _)
          have hdone' : (c.advance params).done = true := by
            have hgt : ¬ (c.advance params).i ≤ (c.advance params).packets := by
              rw [le_iff_toNat_le, hnext]
              change ¬ 2 ≤ c.packets.toNat
              omega
            simp [done, hgt]
          rw [if_neg hshort, pieces_done _ hdone', map_some]
          refine @Outcome.single params data.bytes _ (c.p.take (c.partSize params),
            max (c.p.take (c.partSize params)).length (UInt64.ofNat c.size).toNat) (fun h => ?_) ?_
          · have := hiff.mp h
            omega
          · simp only [piece, if_pos hfrag, gather, hi, ne_eq, not_true_eq_false, if_false]
        · have hof : c.i ≠ c.packets := by
            intro h
            rw [← h, hi] at hcpackets
            exact hone hcpackets.symm
          have hs : c.partSize params = params.maxPayloadSize := by rw [partSize, if_pos hfrag, if_neg hof]
          have hshort : ¬ c.p.length < c.partSize params := by
            rw [hs, hp]
            omega
          have hdrop : (c.advance params).p = data.bytes.drop (1 * params.maxPayloadSize) := by
            change c.p.drop (c.partSize params) = _
            rw [hs, hp, Nat.one_mul]
          have hturns : k - 1 ≤ data.bytes.length := Nat.le_trans hpred (Nat.div_le_self _ _)
          obtain ⟨xs, hxs, hgather⟩ := gather_rest params (c.advance params) 1 k
            data.bytes.length hfrag hcpackets hnext Nat.one_pos (by omega) (by omega) hdrop hsize data.lt hle hturns
          have htake : (data.bytes.take params.maxPayloadSize).length = params.maxPayloadSize := by
            rw [length_take]
            omega
          have hfirst : gatherAll none (c.piece params :: xs) =
              (gatherAll (some (data.bytes.take (1 * params.maxPayloadSize), data.bytes.length)) xs) := by
            simp only [gatherAll, piece, if_pos hfrag, gather, hi, ne_eq, not_true_eq_false, if_false,
              bind_some, hs, hp, hsize, htotal, htake, Nat.one_mul, Nat.max_eq_right (Nat.le_of_lt hlarge)]
            cases gatherAll (some (data.bytes.take params.maxPayloadSize, data.bytes.length)) xs <;> rfl
          rw [if_neg hshort, hxs, map_some]
          rw [hgather] at hfirst
          by_cases heq :
              (k - 1) * params.maxPayloadSize + data.bytes.length % params.maxPayloadSize = data.bytes.length
          · rw [if_pos heq] at hfirst
            exact .fits (hiff.mpr ((pred_mul_eq hpos).mp heq)) hfirst
          · rw [if_neg heq] at hfirst
            exact .failed (fun h => heq ((pred_mul_eq hpos).mpr (hiff.mp h))) hfirst

/-! ## Successive messages -/

/-- The pieces of successive messages. -/
def allPieces (params : Parameters) : List Payload → Option (List Piece)
  | [] => some []
  | data :: rest => (callPieces params data.bytes).bind fun xs => (allPieces params rest).map (xs ++ ·)

theorem sendAll_pieces (params : Parameters) (messages : List Payload) (sn : Nat) :
    match allPieces params messages with
    | none => sendAll params sn messages = none
    | some xs => ∃ ms, sendAll params sn messages = some ms ∧ Forall₂ Carries ms xs := by
  induction messages generalizing sn with
  | nil => exact ⟨[], rfl, .nil⟩
  | cons data rest ih =>
    have hcall := run_pieces params (data.bytes.length + 1) (start params data.bytes) sn
    simp only [allPieces, sendAll, callPieces]
    cases hxs : (start params data.bytes).pieces params (data.bytes.length + 1) with
    | none =>
      simp only [hxs] at hcall
      simp only [hcall, bind_none]
    | some xs =>
      simp only [hxs] at hcall
      obtain ⟨ms, hms, hcarries⟩ := hcall
      have hrest := ih (sn + ms.length)
      simp only [hms, bind_some]
      cases hys : allPieces params rest with
      | none =>
        simp only [hys] at hrest
        simp only [hrest, map_none]
      | some ys =>
        simp only [hys] at hrest
        obtain ⟨ms', hms', hcarries'⟩ := hrest
        simp only [hms', map_some]
        exact ⟨ms ++ ms', rfl, rel_append hcarries hcarries'⟩

/-- Every call begins with a piece that must not meet an unfinished message. -/
theorem callPieces_opens {data : List UInt8} {x : Piece} {xs : List Piece}
    (h : callPieces params data = some (x :: xs)) :
    x.Opens := by
  rw [callPieces, pieces] at h
  split at h
  · cases h
  · split at h
    · cases h
    · rw [map_eq_some_iff] at h
      obtain ⟨ys, -, heq⟩ := h
      obtain ⟨rfl, -⟩ := cons_eq_cons.mp heq
      unfold piece Piece.Opens
      by_cases hfrag : (start params data).fragmented = true
      · rw [if_pos hfrag]
        rfl
      · rw [if_neg hfrag]
        trivial

theorem gather_opens {buf : List UInt8 × Nat} {x : Piece} (h : x.Opens) : gather (some buf) x = none := by
  cases x with
  | whole data => rfl
  | part num of totalSize data =>
    obtain rfl : num = 1 := h
    rfl

theorem gatherAll_stuck (buf : List UInt8 × Nat) {messages : List Payload} {xs : List Piece}
    (h : allPieces params messages = some xs) :
    gatherAll (some buf) xs = none ∨ gatherAll (some buf) xs = some (some buf, []) := by
  induction messages generalizing xs with
  | nil =>
    cases h
    exact .inr rfl
  | cons data rest ih =>
    simp only [allPieces, bind_eq_some_iff, map_eq_some_iff] at h
    obtain ⟨ys, hys, zs, hzs, rfl⟩ := h
    cases ys with
    | nil => exact ih hzs
    | cons y ys =>
      refine .inl ?_
      rw [cons_append, gatherAll, gather_opens (callPieces_opens hys), bind_none]

variable {data : Payload} {rest : List Payload} {xs : List Piece} {s : Option (List UInt8 × Nat)}
  {out : List (List UInt8)}

/-- A message that fits is passed up, one without bytes is not, and behind a single part that
is not the last nothing is. -/
theorem gatherAll_cons (h : allPieces params (data :: rest) = some xs) (hout : gatherAll none xs = some (s, out)) :
    out = [] ∨ ∃ zs out', allPieces params rest = some zs ∧ gatherAll none zs = some (s, out') ∧
      (Fits params data.bytes.length ∧ out = data.bytes :: out' ∨ out = out') := by
  simp only [allPieces, bind_eq_some_iff, map_eq_some_iff] at h
  obtain ⟨ys, hys, zs, hzs, rfl⟩ := h
  have hcase := outcome params data
  rw [hys] at hcase
  rw [gatherAll_append] at hout
  cases hcase with
  | fits h hgather =>
    simp only [hgather, bind_some, map_eq_some_iff, Prod.exists, Prod.mk.injEq] at hout
    obtain ⟨_, out', hrest, rfl, rfl⟩ := hout
    exact .inr ⟨zs, out', hzs, hrest, .inl ⟨h, rfl⟩⟩
  | nothing =>
    simp only [gatherAll, bind_some, map_eq_some_iff, Prod.exists, Prod.mk.injEq] at hout
    obtain ⟨_, out', hrest, rfl, rfl⟩ := hout
    exact .inr ⟨zs, out', hzs, hrest, .inr rfl⟩
  | @single x buf _ hgather =>
    simp only [gatherAll, hgather, bind_some, map_some, map_eq_some_iff, Prod.exists,
      Prod.mk.injEq] at hout
    obtain ⟨s', out', hrest, -, rfl⟩ := hout
    rcases gatherAll_stuck buf hzs with h | h
    · rw [h] at hrest
      cases hrest
    · rw [h] at hrest
      cases hrest
      exact .inl rfl
  | failed _ hgather =>
    rw [hgather] at hout
    cases hout

/-- No message is passed up twice. -/
theorem length_gatherAll_le {messages : List Payload} (h : allPieces params messages = some xs)
    (hout : gatherAll none xs = some (s, out)) : out.length ≤ messages.length := by
  induction messages generalizing xs s out with
  | nil =>
    cases h
    cases hout
    exact Nat.le_refl _
  | cons data rest ih =>
    obtain rfl | ⟨zs, out', hzs, hrest, ⟨-, rfl⟩ | rfl⟩ := gatherAll_cons h hout
    · exact Nat.zero_le _
    · exact Nat.succ_le_succ (ih hzs hrest)
    · exact Nat.le_succ_of_le (ih hzs hrest)

/-- Who receives as many messages as were sent received messages that fit. -/
theorem fits_of_length {messages : List Payload} (h : allPieces params messages = some xs)
    (hout : gatherAll none xs = some (s, out)) (hlen : out.length = messages.length) :
    ∀ data ∈ messages, Fits params data.bytes.length := by
  induction messages generalizing xs s out with
  | nil => exact fun data hdata => absurd hdata not_mem_nil
  | cons data rest ih =>
    obtain rfl | ⟨zs, out', hzs, hrest, ⟨hfits, rfl⟩ | rfl⟩ := gatherAll_cons h hout
    · cases hlen
    · exact forall_mem_cons.mpr ⟨hfits, ih hzs hrest (Nat.succ.inj hlen)⟩
    · have hle := length_gatherAll_le hzs hrest
      rw [length_cons] at hlen
      omega

theorem gatherAll_of_fits (params : Parameters) (messages : List Payload)
    (h : ∀ data ∈ messages, Fits params data.bytes.length) :
    ∃ xs, allPieces params messages = some xs ∧ gatherAll none xs = some (none, messages.map Payload.bytes) := by
  induction messages with
  | nil => exact ⟨[], rfl, rfl⟩
  | cons data rest ih =>
    obtain ⟨hdata, hrest⟩ := forall_mem_cons.mp h
    obtain ⟨zs, hzs, hgather⟩ := ih hrest
    have hcase := outcome params data
    simp only [allPieces]
    generalize callPieces params data.bytes = ys at hcase ⊢
    cases hcase with
    | @fits ys _ hfirst =>
      refine ⟨ys ++ zs, by rw [bind_some, hzs, map_some], ?_⟩
      rw [gatherAll_append, hfirst]
      simp only [bind_some, hgather, map_some]
      rfl
    | nothing hnot => exact absurd hdata hnot
    | single hnot => exact absurd hdata hnot
    | failed hnot => exact absurd hdata hnot
    | endless hnot => exact absurd hdata hnot

/-- What the receiver passes up of the messages of a sender. -/
def Transparent (params : Parameters) (source destination : Address) (sn : Nat) (messages : List Payload) : Prop :=
  ∃ ms, sendAll params sn messages = some ms ∧
    ∃ r out, Reassemble.start.recvAll (ms.map (deliver source destination)) = some (r, out) ∧
      out.map contents = messages.map fun data => (some source, some data.bytes)

/-- **Fragmentation.** The messages of one sender arrive as they are, whole and in order, if and
only if each of them fits. -/
theorem transparent_iff (params : Parameters) (source destination : Address) (sn : Nat) (messages : List Payload) :
    Transparent params source destination sn messages ↔ ∀ data ∈ messages, Fits params data.bytes.length := by
  have hsend := sendAll_pieces params messages sn
  constructor
  · rintro ⟨ms, hms, r, out, hrecv, hout⟩
    cases hxs : allPieces params messages with
    | none =>
      simp only [hxs] at hsend
      rw [hsend] at hms
      cases hms
    | some xs =>
      simp only [hxs] at hsend
      obtain ⟨ms', hms', hcarries⟩ := hsend
      obtain rfl := some.inj (hms.symm.trans hms')
      have hgather := recvAll_gather source destination hcarries Reassemble.start
      change match gatherAll none xs with | none => _ | some (s, out) => _ at hgather
      cases hg : gatherAll none xs with
      | none =>
        simp only [hg] at hgather
        rw [hgather] at hrecv
        cases hrecv
      | some so =>
        simp only [hg] at hgather
        obtain ⟨r', ms', hrecv', -, hout'⟩ := hgather
        obtain ⟨-, rfl⟩ := Prod.mk.inj (some.inj (hrecv.symm.trans hrecv'))
        have hlen := congrArg length (hout'.symm.trans hout)
        rw [length_map, length_map] at hlen
        exact fits_of_length hxs hg hlen
  · intro hfits
    obtain ⟨xs, hxs, hg⟩ := gatherAll_of_fits params messages hfits
    simp only [hxs] at hsend
    obtain ⟨ms, hms, hcarries⟩ := hsend
    have hgather := recvAll_gather source destination hcarries Reassemble.start
    change match gatherAll none xs with | none => _ | some (s, out) => _ at hgather
    simp only [hg] at hgather
    obtain ⟨r, out, hrecv, -, hout⟩ := hgather
    refine ⟨ms, hms, r, out, hrecv, ?_⟩
    rw [hout, List.map_map]
    rfl

def tinyParameters : Parameters := ⟨62, by decide⟩

def fourBytes : Payload := ⟨[1, 2, 3, 4], by decide⟩

/-- The second part of four bytes is empty, and the sizes do not add up. -/
theorem full_last_part_aborts : ¬ Transparent tinyParameters ⟨1, 1⟩ ⟨2, 2⟩ 1 [fourBytes] := by
  rintro ⟨ms, hms, r, out, hrecv, -⟩
  have hnone : ((sendAll tinyParameters 1 [fourBytes]).map fun ms =>
      (Reassemble.start.recvAll (ms.map (deliver ⟨1, 1⟩ ⟨2, 2⟩))).isSome) = some false := by decide
  rw [hms, map_some, hrecv] at hnone
  cases hnone

end Atcd.Rmcast
