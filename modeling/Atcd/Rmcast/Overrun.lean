import Atcd.Rmcast.Fragment
/-!
# Copies of reassembly

`Reassemble::recv` copies the data of a part behind what it has of the message, and then `size`
compares with the capacity, so that the copy is over when it aborts. A buffer is allocated only
if the first part has data. The model here is that of `Reassemble.recv` with every `memcpy` and
with the bytes that are behind the pointer.

Results:
* `Reassembly.copies_within_iff`: all copies of a run stay in their buffers exactly if, whenever a
  further part is taken, the parts since the first one fit into what that one declared.
* `Reassembly.toReassemble_recv`: without the copies it is `Reassemble.recv`.
-/
namespace Atcd.Rmcast

open List Function Option

/-- A `memcpy` into a buffer: where it starts, its bytes, and the bytes that were allocated. -/
structure Copy where
  offset : Nat
  length : Nat
  allocated : Nat
  deriving DecidableEq, Repr

def Copy.Within (c : Copy) : Prop := c.length = 0 ∨ c.offset + c.length ≤ c.allocated

/-- A `Data` with the memory behind `buf_`.
mirrors ACE/protocols/ace/RMCast/Protocol.h:570-583 -/
structure Buffer where
  buf : List UInt8
  capacity : Nat
  allocated : Nat

/-- mirrors Protocol.h:570-583 -/
def Buffer.new (buf : List UInt8) (capacity : Nat) : Buffer × List Copy :=
  let capacity := if capacity < buf.length then buf.length else capacity
  if buf.length ≠ 0 then (⟨buf, capacity, capacity⟩, [⟨0, buf.length, capacity⟩])
  else (⟨buf, capacity, 0⟩, [])

/-- The unfinished message of each source. -/
structure Reassembly where
  map : Address → Option Buffer

namespace Reassembly

def start : Reassembly := ⟨fun _ => none⟩

def bind (r : Reassembly) (source : Address) (newData : Buffer) : Reassembly :=
  ⟨Function.update r.map source (some newData)⟩

def unbind (r : Reassembly) (source : Address) : Reassembly := ⟨Function.update r.map source none⟩

/-- A part that is not the first one: the copy is before the comparison of `size`.
mirrors ACE/protocols/ace/RMCast/Reassemble.cpp:56-99 -/
def next (r : Reassembly) (source : Address) (m : Message) (newData : Buffer) (data : List UInt8)
    (part : UInt32 × UInt32 × UInt64) : List Copy × Option (Reassembly × List Message) :=
  let (num, of, totalSize) := part
  if num = 1 then ([], none)
  else
    ([⟨newData.buf.length, data.length, newData.allocated⟩],
      if newData.capacity < newData.buf.length + data.length then none
      else
        let newData := { newData with buf := newData.buf ++ data }
        if num = of then
          if totalSize.toNat ≠ newData.buf.length then none
          else
            m.destination.map fun destination =>
              (r.unbind source, [((Message.empty.add (.toAddress destination)).add
                (.fromAddress source)).add (.data newData.buf)])
        else some (r.bind source newData, []))

/-- The copies, and what there is afterwards; `none` for `abort`, or where a profile is missing.
mirrors Reassemble.cpp:19-124 -/
def recv (r : Reassembly) (m : Message) : List Copy × Option (Reassembly × List Message) :=
  match m.source with
  | none => ([], none)
  | some source =>
    match m.data with
    | some data =>
      match m.part with
      | some (num, of, totalSize) =>
        match r.map source with
        | none =>
          if num ≠ 1 then ([], some (r, []))
          else
            let (newData, copies) := Buffer.new data totalSize.toNat
            (copies, some (r.bind source newData, []))
        | some newData => r.next source m newData data (num, of, totalSize)
      | none => ([], if (r.map source).isSome then none else some (r, [m]))
    | none => ([], some (if m.hasNoData then (r.unbind source, [m]) else (r, [])))

/-- The copies of the messages that are taken, up to the first `abort`. -/
def copies : Reassembly → List Message → List Copy
  | _, [] => []
  | r, m :: rest =>
    (r.recv m).1 ++
      match (r.recv m).2 with
      | none => []
      | some (r, _) => copies r rest

/-- The state behind these messages. -/
def recvAll : Reassembly → List Message → Option Reassembly
  | r, [] => some r
  | r, m :: rest => (r.recv m).2.bind fun (r, _) => recvAll r rest

/-! ## The parts that a source has sent -/

/-- A part of a message that is not complete: its data and the size of the whole. -/
structure Piece where
  data : List UInt8
  totalSize : UInt64

/-- What a message does to the parts since the first one of its source. -/
def track (source : Address) (pieces : List Piece) (m : Message) : List Piece :=
  if m.source ≠ some source then pieces
  else
    match m.data, m.part with
    | some data, some (num, of, totalSize) =>
      if pieces = [] then if num = 1 then [⟨data, totalSize⟩] else []
      else if num = of then []
      else pieces ++ [⟨data, totalSize⟩]
    | some _, none => pieces
    | none, _ => if m.hasNoData then [] else pieces

/-- The parts that a source has sent of its last message, if it is not complete. -/
def unfinished (source : Address) (ms : List Message) : List Piece := ms.foldl (track source) []

def sizeOf (pieces : List Piece) : Nat := (pieces.map fun p => p.data.length).sum

/-- The room that the first part has made. -/
def room : List Piece → Nat
  | [] => 0
  | first :: _ => if first.data = [] then 0 else max first.data.length first.totalSize.toNat

/-- If the message is a further part of one that is not complete, it fits behind the others. -/
def Fits (ms : List Message) (m : Message) : Prop :=
  ∀ source data num of totalSize, m.source = some source → m.data = some data →
    m.part = some (num, of, totalSize) → num ≠ 1 → unfinished source ms ≠ [] → data ≠ [] →
      sizeOf (unfinished source ms) + data.length ≤ room (unfinished source ms)

/-- Every message of the run that is taken fits. -/
def AllFit (ms : List Message) : Prop :=
  ∀ before m after, ms = before ++ m :: after → (recvAll start before).isSome → Fits before m

/-! ## Runs -/

/-- The buffer of a source and the parts that it has sent. -/
structure Holds (newData : Buffer) (pieces : List Piece) : Prop where
  length : newData.buf.length = sizeOf pieces
  allocated : newData.allocated = room pieces
  sent : pieces ≠ []

/-- A source has a buffer while its message is not complete. -/
def Agree : Option Buffer → List Piece → Prop
  | none, pieces => pieces = []
  | some newData, pieces => Holds newData pieces

def Inv (r : Reassembly) (ms : List Message) : Prop :=
  ∀ source, Agree (r.map source) (unfinished source ms)

theorem unfinished_snoc (source : Address) (ms : List Message) (m : Message) :
    unfinished source (ms ++ [m]) = track source (unfinished source ms) m := by
  unfold unfinished
  rw [foldl_append]
  rfl

theorem start_inv : Inv start [] := fun _ => rfl

theorem track_other {source : Address} {m : Message} (h : m.source ≠ some source)
    (pieces : List Piece) : track source pieces m = pieces := if_pos h

variable {r r' : Reassembly} {ms : List Message} {m : Message} {out : List Message}

theorem inv_snoc (h : Inv r ms) {source : Address} (hsource : m.source = some source)
    (hother : ∀ a, a ≠ source → r'.map a = r.map a)
    (hagree : Agree (r'.map source) (track source (unfinished source ms) m)) :
    Inv r' (ms ++ [m]) := by
  intro a
  rw [unfinished_snoc]
  by_cases ha : a = source
  · rw [ha]
    exact hagree
  · have hne : m.source ≠ some a := by
      rw [hsource]
      exact fun hc => ha (some.inj hc).symm
    rw [track_other hne, hother a ha]
    exact h a

theorem bind_map (r : Reassembly) (source : Address) (newData : Buffer) :
    (r.bind source newData).map source = some newData ∧
      ∀ a, a ≠ source → (r.bind source newData).map a = r.map a :=
  ⟨update_self .., fun _ ha => update_of_ne ha ..⟩

theorem unbind_map (r : Reassembly) (source : Address) :
    (r.unbind source).map source = none ∧ ∀ a, a ≠ source → (r.unbind source).map a = r.map a :=
  ⟨update_self .., fun _ ha => update_of_ne ha ..⟩

theorem new_holds (data : List UInt8) (totalSize : UInt64) :
    Holds (Buffer.new data totalSize.toNat).1 [⟨data, totalSize⟩] := by
  unfold Buffer.new
  by_cases hzero : data = []
  · subst hzero
    exact ⟨rfl, rfl, cons_ne_nil _ _⟩
  · have hlen : data.length ≠ 0 := fun hc => hzero (eq_nil_of_length_eq_zero hc)
    rw [if_pos hlen]
    refine ⟨(Nat.add_zero _).symm, ?_, cons_ne_nil _ _⟩
    show (if totalSize.toNat < data.length then data.length else totalSize.toNat) =
      if data = [] then 0 else max data.length totalSize.toNat
    split <;> omega

theorem new_within (data : List UInt8) (capacity : Nat) :
    ∀ c ∈ (Buffer.new data capacity).2, c.Within := by
  unfold Buffer.new
  dsimp only
  split
  · intro c hc
    rw [mem_singleton.mp hc]
    right
    show 0 + data.length ≤ if capacity < data.length then data.length else capacity
    split <;> omega
  · exact fun c hc => absurd hc not_mem_nil

theorem Holds.append {newData : Buffer} {pieces : List Piece} (h : Holds newData pieces)
    (data : List UInt8) (totalSize : UInt64) :
    Holds { newData with buf := newData.buf ++ data } (pieces ++ [⟨data, totalSize⟩]) := by
  obtain ⟨first, rest, rfl⟩ := exists_cons_of_ne_nil h.sent
  refine ⟨?_, h.allocated, cons_ne_nil _ _⟩
  have hlen := h.length
  simp [sizeOf] at hlen ⊢
  omega

/-- A further part: its copy is inside if the part fits. -/
theorem next_spec (h : Inv r ms) {source : Address} {newData : Buffer} {data : List UInt8}
    {num of : UInt32} {totalSize : UInt64} (hsource : m.source = some source)
    (hdata : m.data = some data) (hpart : m.part = some (num, of, totalSize))
    (hmap : r.map source = some newData) :
    ((∀ c ∈ (r.next source m newData data (num, of, totalSize)).1, c.Within) ↔ Fits ms m) ∧
      ∀ r' out, (r.next source m newData data (num, of, totalSize)).2 = some (r', out) →
        Inv r' (ms ++ [m]) := by
  have hholds : Holds newData (unfinished source ms) := by
    have hagree := h source
    rw [hmap] at hagree
    exact hagree
  have htrack : track source (unfinished source ms) m =
      if num = of then [] else unfinished source ms ++ [⟨data, totalSize⟩] := by
    unfold track
    rw [if_neg (not_not.mpr hsource), hdata, hpart]
    exact if_neg hholds.sent
  have hfits : Fits ms m ↔ num = 1 ∨ data = [] ∨
      sizeOf (unfinished source ms) + data.length ≤ room (unfinished source ms) := by
    constructor
    · intro hf
      by_cases hnum : num = 1
      · exact .inl hnum
      by_cases hzero : data = []
      · exact .inr (.inl hzero)
      exact .inr (.inr (hf _ _ _ _ _ hsource hdata hpart hnum hholds.sent hzero))
    · intro hc source' data' num' of' totalSize' hsource' hdata' hpart' hnum hsent hzero
      rw [hsource] at hsource'
      rw [hdata] at hdata'
      rw [hpart] at hpart'
      cases hsource'
      cases hdata'
      cases hpart'
      exact (hc.resolve_left hnum).resolve_left hzero
  unfold next
  dsimp only
  by_cases hnum : num = 1
  · rw [if_pos hnum]
    refine ⟨iff_of_true (fun c hc => absurd hc not_mem_nil) (hfits.mpr (.inl hnum)), ?_⟩
    intro r' out hr'
    cases hr'
  rw [if_neg hnum]
  constructor
  · rw [hfits, or_iff_right hnum, ← hholds.allocated, ← hholds.length, ← length_eq_zero_iff]
    simp [Copy.Within]
  · intro r' out hr'
    split at hr'
    · cases hr'
    split at hr'
    · rename_i hof
      split at hr'
      · cases hr'
      · obtain ⟨destination, -, hr'⟩ := map_eq_some_iff.mp hr'
        obtain ⟨rfl, -⟩ := Prod.mk.inj hr'
        refine inv_snoc h hsource (unbind_map r source).2 ?_
        rw [(unbind_map r source).1, htrack, if_pos hof]
        exact rfl
    · rename_i hof
      obtain ⟨rfl, -⟩ := Prod.mk.inj (some.inj hr')
      refine inv_snoc h hsource (bind_map r source _).2 ?_
      rw [(bind_map r source _).1, htrack, if_neg hof]
      exact hholds.append data totalSize

theorem fits_of_none {source : Address} (hsource : m.source = some source)
    (h : m.data = none ∨ m.part = none ∨ unfinished source ms = []) : Fits ms m := by
  intro source' data num of totalSize hsource' hdata hpart _ hsent
  rw [hsource] at hsource'
  cases hsource'
  rcases h with h | h | h
  · rw [h] at hdata
    cases hdata
  · rw [h] at hpart
    cases hpart
  · exact absurd h hsent

/-- **One message**: its copies are inside exactly if it fits. -/
theorem recv_spec (h : Inv r ms) (m : Message) : ((∀ c ∈ (r.recv m).1, c.Within) ↔ Fits ms m) ∧
      ∀ r' out, (r.recv m).2 = some (r', out) → Inv r' (ms ++ [m]) := by
  have hnil : ∀ c ∈ ([] : List Copy), c.Within := fun c hc => absurd hc not_mem_nil
  unfold recv
  cases hsource : m.source with
  | none =>
    refine ⟨iff_of_true hnil ?_, fun r' out hr' => by cases hr'⟩
    intro source' data num of totalSize hsource'
    rw [hsource] at hsource'
    cases hsource'
  | some source =>
    cases hdata : m.data with
    | none =>
      refine ⟨iff_of_true hnil (fits_of_none hsource (.inl hdata)), fun r' out hr' => ?_⟩
      have htrack : track source (unfinished source ms) m =
          if m.hasNoData then [] else unfinished source ms := by
        unfold track
        rw [if_neg (not_not.mpr hsource), hdata]
      dsimp only at hr'
      split at hr'
      · rename_i hno
        cases hr'
        refine inv_snoc h hsource (unbind_map r source).2 ?_
        rw [(unbind_map r source).1, htrack, if_pos hno]
        exact rfl
      · rename_i hno
        cases hr'
        refine inv_snoc h hsource (fun a _ => rfl) ?_
        rw [htrack, if_neg hno]
        exact h source
    | some data =>
      cases hpart : m.part with
      | none =>
        refine ⟨iff_of_true hnil (fits_of_none hsource (.inr (.inl hpart))), fun r' out hr' => ?_⟩
        have htrack : track source (unfinished source ms) m = unfinished source ms := by
          unfold track
          rw [if_neg (not_not.mpr hsource), hdata, hpart]
        dsimp only at hr'
        split at hr'
        · cases hr'
        · cases hr'
          refine inv_snoc h hsource (fun a _ => rfl) ?_
          rw [htrack]
          exact h source
      | some part =>
        obtain ⟨num, of, totalSize⟩ := part
        dsimp only
        cases hmap : r.map source with
        | some newData => exact next_spec h hsource hdata hpart hmap
        | none =>
          have hsent : unfinished source ms = [] := by
            have hagree := h source
            rw [hmap] at hagree
            exact hagree
          have hfits : Fits ms m := fits_of_none hsource (.inr (.inr hsent))
          have htrack : track source (unfinished source ms) m =
              if num = 1 then [⟨data, totalSize⟩] else [] := by
            unfold track
            rw [if_neg (not_not.mpr hsource), hdata, hpart]
            exact if_pos hsent
          by_cases hnum : num = 1
          · rw [if_neg (not_not.mpr hnum)]
            refine ⟨iff_of_true (new_within data totalSize.toNat) hfits, fun r' out hr' => ?_⟩
            obtain ⟨rfl, -⟩ := Prod.mk.inj (some.inj hr')
            refine inv_snoc h hsource (bind_map r source _).2 ?_
            rw [(bind_map r source _).1, htrack, if_pos hnum]
            exact new_holds data totalSize
          · rw [if_pos hnum]
            refine ⟨iff_of_true hnil hfits, fun r' out hr' => ?_⟩
            obtain ⟨rfl, -⟩ := Prod.mk.inj (some.inj hr')
            refine inv_snoc h hsource (fun a _ => rfl) ?_
            rw [hmap, htrack, if_neg hnum]
            exact rfl

theorem copies_cons (r : Reassembly) (m : Message) (ms : List Message) :
    copies r (m :: ms) = (r.recv m).1 ++ match (r.recv m).2 with
      | none => []
      | some (r, _) => copies r ms := rfl

theorem recvAll_cons (r : Reassembly) (m : Message) (ms : List Message) :
    recvAll r (m :: ms) = (r.recv m).2.bind fun (r, _) => recvAll r ms := rfl

/-- **A run** from a state that these messages have led to. -/
theorem copies_spec {sent : List Message} (h : Inv r sent) (ms : List Message) :
    (∀ c ∈ copies r ms, c.Within) ↔ ∀ before m after, ms = before ++ m :: after →
      (recvAll r before).isSome → Fits (sent ++ before) m := by
  induction ms generalizing r sent with
  | nil =>
    refine iff_of_true (fun c hc => absurd hc not_mem_nil) ?_
    intro before m after hms
    simp at hms
  | cons m ms ih =>
    obtain ⟨hfits, hinv⟩ := recv_spec h m
    have hhead : (∀ before m' after, m :: ms = before ++ m' :: after →
        (recvAll r before).isSome → Fits (sent ++ before) m') ↔
        Fits sent m ∧ ∀ before m' after, ms = before ++ m' :: after →
          (recvAll r (m :: before)).isSome → Fits (sent ++ m :: before) m' := by
      constructor
      · intro hall
        constructor
        · have hfirst := hall [] m ms rfl rfl
          rwa [append_nil] at hfirst
        · intro before m' after hms
          exact hall (m :: before) m' after (by rw [hms, cons_append])
      · rintro ⟨hfirst, hrest⟩ before m' after hms
        cases before with
        | nil =>
          obtain ⟨rfl, -⟩ := cons.inj hms
          rw [append_nil]
          exact fun _ => hfirst
        | cons x before =>
          obtain ⟨rfl, htail⟩ := cons.inj hms
          exact hrest before m' after htail
    rw [copies_cons, forall_mem_append, hfits, hhead]
    apply and_congr_right
    intro _
    simp only [recvAll_cons]
    cases hnext : (r.recv m).2 with
    | none =>
      refine iff_of_true (fun c hc => absurd hc not_mem_nil) ?_
      intro before m' after _ hsome
      cases hsome
    | some step =>
      obtain ⟨r', out⟩ := step
      have hall := ih (hinv r' out hnext)
      simp only [append_assoc, cons_append, nil_append] at hall
      exact hall

/-- **Every copy of a run** is inside of the buffer that was allocated for the source exactly if
every further part that is taken fits behind the others. -/
theorem copies_within_iff (ms : List Message) :
    (∀ c ∈ copies start ms, c.Within) ↔ AllFit ms := copies_spec start_inv ms

/-! ## Without the copies -/

/-- What `Reassemble` has of the buffers. -/
def toReassemble (r : Reassembly) : Reassemble :=
  ⟨fun a => (r.map a).map fun newData => (newData.buf, newData.capacity)⟩

theorem toReassemble_bind (r : Reassembly) (source : Address) (newData : Buffer) :
    (r.bind source newData).toReassemble =
      r.toReassemble.bind source newData.buf newData.capacity := by
  unfold toReassemble bind Reassemble.bind
  congr 1
  funext a
  by_cases ha : a = source
  · subst ha
    simp
  · simp [update_of_ne ha]

theorem toReassemble_unbind (r : Reassembly) (source : Address) :
    (r.unbind source).toReassemble = r.toReassemble.unbind source := by
  unfold toReassemble unbind Reassemble.unbind
  congr 1
  funext a
  by_cases ha : a = source
  · subst ha
    simp
  · simp [update_of_ne ha]

theorem new_buffer (data : List UInt8) (capacity : Nat) :
    (Buffer.new data capacity).1.buf = data ∧
      (Buffer.new data capacity).1.capacity = max data.length capacity := by
  have hcapacity : (if capacity < data.length then data.length else capacity) =
      max data.length capacity := by
    split <;> omega
  unfold Buffer.new
  dsimp only
  split
  · exact ⟨rfl, hcapacity⟩
  · exact ⟨rfl, hcapacity⟩

/-- Without the copies it is the model of the messages that are passed up. -/
theorem toReassemble_recv (r : Reassembly) (m : Message) :
    (r.recv m).2.map (fun (r, out) => (r.toReassemble, out)) = r.toReassemble.recv m := by
  have hmap : ∀ a, r.toReassemble.map a =
      (r.map a).map fun newData => (newData.buf, newData.capacity) := fun _ => rfl
  unfold recv Reassemble.recv
  cases m.source with
  | none => rfl
  | some source =>
    dsimp only [bind_some]
    rw [hmap]
    cases m.data with
    | none =>
      dsimp only
      split
      · rw [← toReassemble_unbind]
        rfl
      · rfl
    | some data =>
      cases m.part with
      | none =>
        cases r.map source with
        | none => rfl
        | some newData => rfl
      | some part =>
        obtain ⟨num, of, totalSize⟩ := part
        cases r.map source with
        | none =>
          dsimp only [map_none]
          split
          · rfl
          · obtain ⟨hbuf, hcapacity⟩ := new_buffer data totalSize.toNat
            rw [map_some, toReassemble_bind, hbuf, hcapacity]
        | some newData =>
          dsimp only [map_some]
          unfold next
          dsimp only
          split
          · rfl
          split
          · rfl
          split
          · split
            · rfl
            · rw [← toReassemble_unbind]
              cases m.destination with
              | none => rfl
              | some destination => rfl
          · exact congrArg (fun r => some (r, [])) (toReassemble_bind r source _)

def partMessage (num of : UInt32) (totalSize : UInt64) (data : List UInt8) : Message :=
  ((Message.empty.add (.fromAddress ⟨1, 1⟩)).add (.part num of totalSize)).add (.data data)

/-- The first part says that the whole message has one byte, the second one brings ten. -/
theorem second_part_overruns : ¬∀ c ∈ copies start
    [partMessage 1 2 1 [7], partMessage 2 2 1 (List.replicate 10 7)], c.Within := by
  have hcopies : copies start [partMessage 1 2 1 [7], partMessage 2 2 1 (replicate 10 7)] =
      [⟨0, 1, 1⟩, ⟨1, 10, 1⟩] := by decide_cbv
  rw [hcopies]
  intro hall
  rcases hall ⟨1, 10, 1⟩ (by simp) with hzero | hle
  · cases hzero
  · have hlt : 1 + 10 ≤ 1 := hle
    omega

end Reassembly

end Atcd.Rmcast
