import Atcd.Giop.RequestHeader
/-!
# What a parsed request header refers to

The parsers on an arbitrary message: the lengths and subscripts are whatever its
bytes say. `Runs` is what a step does to the stream, with the condition under
which it does not move the read pointer backwards; all readers do so
unconditionally (`Steady`), a skip if its length does not carry the pointer past
the end of the address space.

The defects of the source are lengths read as a `Long` and passed to `skip_bytes`,
whose check lets a pointer that wraps around pass; the results of these skips,
which 1.2 never looks at again; the unchecked subscript of the profiles; and the
operation lengths 0 and 1, for which the length recorded is 2^32 - 1 and what
`strlen` finds.

Results:
* `skipBytes_runs`: when a skip moves forward.
* `refersInside_iff`: the read pointer never moves backwards, the subscript is in
  range and what the request refers to lies in the message exactly if the lengths
  of the message are safe (`Safe`).
* `negative_key_length`: a key length of -12 takes the parser back.
-/
namespace Atcd.Giop.RequestHeader

open Header Input Nat

def Input.Forward (i : Input) : Prop := ∀ mv ∈ i.moves, mv.1 ≤ mv.2

/-- A message in memory: the reader is inside, and the buffer ends below the last
addresses of the address space. -/
structure Input.Wf (m : Machine) (i : Input) : Prop where
  rd_le : i.rd ≤ i.wr
  room : i.wr + 16 ≤ m.space

/-- A step of the stream that moves the read pointer forward exactly if `g`. -/
structure Runs (i i' : Input) (g : Prop) : Prop where
  memory_eq : i'.memory = i.memory
  wr_eq : i'.wr = i.wr
  rd_le : i'.rd ≤ i'.wr
  good : i'.good = true → i.good = true
  forward : i'.Forward ↔ i.Forward ∧ g
  ahead : g → i.rd ≤ i'.rd

variable {m : Machine}

variable {i j k : Input}

theorem Runs.wf {i' : Input} {g : Prop} (h : Runs i i' g) (hi : i.Wf m) : i'.Wf m :=
  ⟨h.rd_le, by rw [h.wr_eq]; exact hi.room⟩

theorem Runs.refl (hi : i.Wf m) : Runs i i True :=
  ⟨rfl, rfl, hi.rd_le, id, by simp, fun _ => Nat.le_refl _⟩

theorem Runs.trans {g g' : Prop} (h : Runs i j g) (h' : Runs j k g') : Runs i k (g ∧ g') := by
  refine ⟨h'.memory_eq.trans h.memory_eq, h'.wr_eq.trans h.wr_eq, h'.rd_le,
    fun hg => h.good (h'.good hg), ?_, fun hg => Nat.le_trans (h.ahead hg.1) (h'.ahead hg.2)⟩
  rw [h'.forward, h.forward, and_assoc]

theorem Runs.congr {g g' : Prop} (h : Runs i j g) (e : g ↔ g') : Runs i j g' := by
  rwa [← propext e]

theorem Runs.steady {g : Prop} (h : Runs i j g) (h' : Runs j k True) : Runs i k g :=
  (h.trans h').congr (and_iff_left trivial)

theorem bad_runs (hi : i.Wf m) : Runs i i.bad True :=
  ⟨rfl, rfl, hi.rd_le, by simp [bad], by simp [Input.Forward, bad], fun _ => Nat.le_refl _⟩

theorem move_runs {p : Nat} (hp : p ≤ i.wr) : Runs i (i.move p) (i.rd ≤ p) := by
  refine ⟨rfl, rfl, hp, id, ?_, id⟩
  simp only [Input.Forward, move, List.forall_mem_cons]
  exact and_comm

theorem move_steady {p : Nat} (hp : p ≤ i.wr) (hrd : i.rd ≤ p) : Runs i (i.move p) True :=
  (move_runs hp).congr (iff_true_intro hrd)

/-! ## Skips -/

variable {i j : Input} {rest : Input → Prop} {h : Header}

/-- **Skips.** The pointer wraps around exactly if the length carries it past the
end of the address space; it is then in front of where it was, so the check of
`skip_bytes` lets it pass. -/
theorem skipBytes_runs (hi : i.Wf m) {len : Nat} (hlen : len < m.space) :
    Runs i (i.skipBytes m len).2 (i.rd + len < m.space) := by
  have h1 := hi.rd_le
  have h2 := hi.room
  simp only [skipBytes]
  by_cases hwrap : i.rd + len < m.space
  · rw [mod_eq_of_lt hwrap]
    split
    · rename_i hle
      exact (move_steady hle (le_add_right _ _)).congr (iff_of_true trivial hwrap)
    · exact (bad_runs hi).congr (iff_of_true trivial hwrap)
  · have hdest : (i.rd + len) % m.space = i.rd + len - m.space := by
      rw [mod_eq_sub_mod (by omega), mod_eq_of_lt (by omega)]
    rw [hdest, if_pos (by omega)]
    exact (move_runs (by omega)).congr (iff_of_false (by omega) hwrap)

theorem skipBytes_true {len : Nat} (hwrap : i.rd + len < m.space) :
    (i.skipBytes m len).1 = true ↔ i.rd + len ≤ i.wr := by
  simp only [skipBytes, mod_eq_of_lt hwrap]
  split <;> simp_all

theorem skipBytes_false {len : Nat} (h : (i.skipBytes m len).1 = false) :
    (i.skipBytes m len).2.good = false := by
  simp only [skipBytes] at h ⊢
  split at h
  · cases h
  · rename_i hle
    rw [if_neg hle]
    rfl

theorem sizeT_lt (m : Machine) (x : Int32) : m.sizeT x < m.space := by
  have hpos : 0 < m.space := Nat.two_pow_pos m.width
  unfold Machine.sizeT
  have h2 := Int.emod_lt_of_pos x.toInt (by omega : (0 : Int) < m.space)
  omega

theorem ulong_lt (m : Machine) (x : UInt32) : x.toNat < m.space := by
  have h : 2 ^ 32 ≤ m.space := Nat.pow_le_pow_right (by decide) m.width_ge
  exact Nat.lt_of_lt_of_le x.toNat_lt h

/-- Widening a `Long` does not lose its bits. -/
theorem ulong_le_sizeT (m : Machine) (x : Int32) : x.toUInt32.toNat ≤ m.sizeT x := by
  have h32 : 2 ^ 32 ≤ m.space := Nat.pow_le_pow_right (by decide) m.width_ge
  have hx : x.toInt = x.toUInt32.toNat ∨ x.toInt = x.toUInt32.toNat - 2 ^ 32 := by
    have h := BitVec.toInt_eq_toNat_cond x.toBitVec
    have e : x.toInt = x.toBitVec.toInt := rfl
    have e' : x.toUInt32.toNat = x.toBitVec.toNat := rfl
    rw [e, e', h]
    split <;> simp
  have hlt := x.toUInt32.toNat_lt
  unfold Machine.sizeT
  rcases hx with h | h
  · rw [h, Int.emod_eq_of_lt (by omega) (by omega)]
    omega
  · have hmod : (x.toInt % (m.space : Int)) = x.toUInt32.toNat - 2 ^ 32 + m.space := by
      rw [h, ← Int.add_emod_right, Int.emod_eq_of_lt (by omega) (by omega)]
    omega

/-! ## Readers -/

/-- A reader never moves the read pointer backwards. -/
def Steady {α : Type} (m : Machine) (f : Reader α) : Prop :=
  ∀ i : Input, i.Wf m → Runs i (f i).2 True

theorem Steady.pure {α : Type} (a : α) : Steady m (.pure a) := fun _ hi => .refl hi

theorem Steady.andThen {α β : Type} {f : Reader α} {g : α → Reader β} (hf : Steady m f)
    (hg : ∀ a, Steady m (g a)) : Steady m (f.andThen g) := by
  intro i hi
  have h1 := hf i hi
  rcases e : f i with ⟨a | a, j⟩
  · simp only [Reader.andThen, e]
    rwa [e] at h1
  · rw [e] at h1
    simp only [Reader.andThen, e]
    exact h1.steady (hg a j (h1.wf hi))

theorem adjust_steady {size align : Nat} (ha : Cdr.IsAlign align)
    (hs : ∀ i : Input, i.Wf m → i.rd + Core.gap i.rd align + size < m.space) (i : Input)
    (hi : i.Wf m) : Runs i (i.adjust m size align).2 True := by
  have hlt := hs i hi
  have hbuf : Cdr.alignBinary i.rd align % m.space = i.rd + Core.gap i.rd align := by
    rw [Cdr.alignBinary_eq ha, mod_eq_of_lt (by omega)]
  simp only [adjust, hbuf, mod_eq_of_lt hlt]
  split
  · rename_i hle
    exact move_steady hle (by omega)
  · exact bad_runs hi

theorem readOctet_steady : Steady m Input.readOctet := by
  intro i hi
  rw [readOctet]
  split
  · rename_i hlt
    exact move_steady (succ_le_of_lt hlt) (le_succ _)
  · exact bad_runs hi

theorem readWord_steady {size : Nat} (hs : Cdr.IsAlign size) :
    Steady m (Input.readWord m size) := by
  intro i hi
  have hsize : size ≤ 8 := by rcases hs with h | h | h | h <;> omega
  have hfit : ∀ j : Input, j.Wf m → j.rd + Core.gap j.rd size + size < m.space := by
    intro j hj
    have h1 := hj.rd_le
    have h2 := hj.room
    have h3 := Core.gap_lt j.rd size hs.pos
    omega
  have hadj := adjust_steady hs hfit i hi
  rcases e : i.adjust m size size with ⟨a | a, j⟩
  · rw [e] at hadj
    simp only [readWord, e]
    exact hadj.steady (bad_runs (hadj.wf hi))
  · rw [e] at hadj
    simp only [readWord, e]
    exact hadj

theorem readShort_steady : Steady m (Input.readShort m) :=
  (readWord_steady (.inr (.inl rfl))).andThen fun _ => .pure _

theorem readUlong_steady : Steady m (Input.readUlong m) :=
  (readWord_steady (.inr (.inr (.inl rfl)))).andThen fun _ => .pure _

theorem readLong_steady : Steady m (Input.readLong m) :=
  readUlong_steady.andThen fun _ => .pure _

theorem readOctets_steady (n : UInt32) : Steady m (Input.readOctets m n) := by
  intro i hi
  have h1 := hi.rd_le
  have h2 := hi.room
  unfold readOctets
  by_cases hn : n.toNat > i.length
  · rw [if_pos hn]
    exact .refl hi
  · have hfit : i.rd + n.toNat ≤ i.wr := by
      unfold length at hn
      omega
    rw [if_neg hn]
    split
    · exact (skipBytes_runs hi (ulong_lt m n)).congr (iff_true_intro (by omega))
    · rw [readOctetArray, if_neg hn]
      split
      · exact .refl hi
      · have hbuf : Cdr.alignBinary i.rd 1 % m.space = i.rd := by
          rw [Cdr.alignBinary_eq (.inl rfl), Core.gap_one, Nat.add_zero]
          exact mod_eq_of_lt (by omega)
        have hend : (i.rd + n.toNat) % m.space = i.rd + n.toNat := mod_eq_of_lt (by omega)
        simp only [adjust, hbuf, hend, if_pos hfit]
        exact move_steady hfit (le_add_right _ _)

theorem readOctetSeq_steady : Steady m (Input.readOctetSeq m) :=
  readUlong_steady.andThen readOctets_steady

theorem readTagged_steady : Steady m (Input.readTagged m) :=
  readUlong_steady.andThen fun _ => readOctetSeq_steady.andThen fun _ => .pure _

theorem readElements_steady (n : Nat) : Steady m (Input.readElements m n) := by
  induction n with
  | zero => exact .pure _
  | succ n ih => exact readTagged_steady.andThen fun _ => ih.andThen fun _ => .pure _

theorem readTaggedSeq_steady : Steady m (Input.readTaggedSeq m) := by
  refine readUlong_steady.andThen fun n i hi => ?_
  rw [readCounted]
  split
  · exact .refl hi
  · exact readElements_steady _ i hi

theorem alignReadPtr_steady (hi : i.Wf m) : Runs i (i.alignReadPtr m 8) True := by
  have h1 := hi.rd_le
  have h2 := hi.room
  have h3 := Core.gap_lt i.rd 8 (by decide)
  simp only [alignReadPtr]
  rw [Cdr.alignBinary_eq (.inr (.inr (.inr rfl))), mod_eq_of_lt (by omega)]
  split
  · rename_i hle
    exact move_steady hle (le_add_right _ _)
  · exact bad_runs hi

/-! ## When a message is safe -/

variable (m)

/-- Behind a 1.2 target the operation and the service contexts can be read. -/
def Rest12 (i : Input) : Prop :=
  ∃ length j, i.readUlong m = (some length, j) ∧ (j.skipBytes m length.toNat).1 = true ∧
    ((j.skipBytes m length.toNat).2.readTaggedSeq m).1.isSome = true

/-- Behind a 1.0 target the operation can be read, and nothing has failed when the
principal has been read. -/
def Rest10 (i : Input) : Prop :=
  ∃ length j, i.readUlong m = (some length, j) ∧ (j.skipBytes m length.toNat).1 = true ∧
    ((j.skipBytes m length.toNat).2.readOctetSeq m).2.good = true

def NulBefore (i : Input) (p : Nat) : Prop := ∃ q, i.rd ≤ q ∧ q < p ∧ i.memory q = 0

/-- In front of a key: its length does not carry the read pointer past the end of
the address space. -/
def KeyForward (i : Input) : Prop :=
  i.good = true → ∀ len j, i.readLong m = (some len, j) → j.rd + m.sizeT len < m.space

/-- In front of a 1.2 key: moreover, if the rest of the header can be read, the
length is at most what is left. -/
def KeySafe (i : Input) : Prop :=
  KeyForward m i ∧ (i.good = true → ∀ len j, i.readLong m = (some len, j) →
    Rest12 m (j.skipBytes m (m.sizeT len)).2 → len.toUInt32.toNat ≤ j.length)

/-- In front of an `IORAddressingInfo`: the length of the type id is like that of
a key and its NUL is in the message, and the index is below the number of
profiles. -/
def IorSafe (i : Input) : Prop :=
  i.good = true → ∀ index j, i.readUlong m = (some index, j) →
    ∀ len k, j.readLong m = (some len, k) → k.rd + m.sizeT len < m.space ∧
      ∀ ps l, (k.skipBytes m (m.sizeT len)).2.readTaggedSeq m = (some ps, l) →
        index.toNat < ps.length ∧
          (Rest12 m l → len.toUInt32.toNat ≤ k.length ∧ NulBefore k k.wr)

/-- In front of a 1.2 target. -/
def TargetSafe (i : Input) : Prop :=
  ∀ d j, i.readShort m = (some d, j) → (d = 0 → KeySafe m j) ∧ (d = 2 → IorSafe m j)

/-- In front of an operation: the length does not carry the read pointer past the
end of the address space, and if the rest of the header can be read it is not 0
(2^32 - 1 octets are recorded for it) and has a NUL behind it if it is 1. -/
def NameSafe (rest : Input → Prop) (i : Input) : Prop :=
  ∀ length j, i.readUlong m = (some length, j) → j.rd + length.toNat < m.space ∧
    (rest i → (length = 0 → 2 ^ 32 - 1 ≤ j.length) ∧ (length = 1 → NulBefore j (j.wr + 1)))

/-- The lengths of a 1.2 request are safe. -/
def Safe12 (i : Input) : Prop :=
  ((Header.before12 m i).status = true → TargetSafe m (Header.before12 m i).input) ∧
  (((Header.before12 m i).unmarshallTargetAddress m).status = true →
    NameSafe m (Rest12 m) ((Header.before12 m i).unmarshallTargetAddress m).input)

/-- The lengths of a 1.0 request are safe: its parser looks at `good_bit_` at the
end, so a key that is too long is found out. -/
def Safe10 (i : Input) : Prop :=
  ∀ cs j, i.readTaggedSeq m = (some cs, j) →
    ((Header.before10 m j cs).status = true → KeyForward m (Header.before10 m j cs).input) ∧
    (((Header.before10 m j cs).target10 m).status = true →
      NameSafe m (Rest10 m) ((Header.before10 m j cs).target10 m).input)

/-- The lengths of a request are safe. -/
def Safe : Version → Input → Prop
  | .v10, i => Safe10 m i
  | .v11, i => Safe10 m i
  | .v12, i => Safe12 m i

variable {m}

/-! ## What a request refers to -/

def Input.Holds (i : Input) (s : Span) : Prop := i.rd ≤ s.ptr ∧ s.ptr + s.len ≤ i.wr

/-- The key and the type id lie in the message; the type id is a string. -/
structure Input.HoldsTarget (i : Input) (p : Profile) : Prop where
  objectKey : ∀ s, p.objectKey = some s → i.Holds s
  typeId : ∀ s, p.typeId = some s → i.Holds s ∧ ∃ q, s.ptr ≤ q ∧ q < i.wr ∧ i.memory q = 0

/-- A parsed request refers to the message only: the read pointer has not moved
backwards, the profiles are indexed below their length, and if the parser returns
0 the operation name, the key and the type id lie in the message. -/
structure RefersInside (i : Input) (res : Int × Header) : Prop where
  forward : res.2.input.Forward
  index_lt : ∀ x, res.2.indexed = some x → x.1 < x.2
  operation : res.1 = 0 → ∀ s, res.2.request.operation = some s → i.Holds s
  target : res.1 = 0 → i.HoldsTarget res.2.request.profile

/-- A part of the parser between two headers. -/
structure Header.Keeps (h h' : Header) : Prop where
  runs : Runs h.input h'.input True
  indexed : h'.indexed = h.indexed
  profile : h'.request.profile = h.request.profile
  operation : h'.request.operation = h.request.operation

theorem Header.read_keeps {α : Type} {f : Reader α} (hf : Steady m f) {h : Header}
    (hw : h.input.Wf m) : Header.Keeps h (h.read f).2 := by
  unfold read
  split
  · exact ⟨hf _ hw, rfl, rfl, rfl⟩
  · exact ⟨.refl hw, rfl, rfl, rfl⟩

theorem before12_keeps (hi : i.Wf m) : Header.Keeps (Header.start i) (Header.before12 m i) := by
  have h1 := read_keeps (h := start i) readUlong_steady hi
  let h : Header := { ((start i).read (readUlong m)).2 with
    request.requestId := ((start i).read (readUlong m)).1.getD 0 }
  have hw : h.input.Wf m := h1.runs.wf hi
  have h2 := read_keeps (h := h) readOctet_steady hw
  have hw2 := h2.runs.wf hw
  have h3 := (skipBytes_runs hw2 (ulong_lt m 3)).congr (iff_true_intro (by
    have h4 := hw2.rd_le
    have h5 := hw2.room
    have h6 : (3 : UInt32).toNat = 3 := rfl
    omega))
  exact ⟨(h1.runs.steady h2.runs).steady h3, h2.indexed.trans h1.indexed,
    h2.profile.trans h1.profile, h2.operation.trans h1.operation⟩

theorem before10_keeps (hi : i.Wf m) (cs : List Tagged) :
    Header.Keeps (Header.start i) (Header.before10 m i cs) := by
  let g : Header := { start i with request.serviceInfo := cs }
  have h1 := read_keeps (h := g) readUlong_steady hi
  let h : Header := { (g.read (readUlong m)).2 with
    request.requestId := (g.read (readUlong m)).1.getD 0 }
  have h2 := read_keeps (h := h) readOctet_steady (h1.runs.wf hi)
  exact ⟨h1.runs.steady h2.runs, h2.indexed.trans h1.indexed,
    h2.profile.trans h1.profile, h2.operation.trans h1.operation⟩

/-! ## The target -/

/-- Nothing of the message is referred to yet. -/
structure Header.Fresh (h : Header) : Prop where
  objectKey : h.request.profile.objectKey = none
  typeId : h.request.profile.typeId = none
  indexed : h.indexed = none

/-- What `RefersInside` asks for when the target has been parsed. -/
structure TargetRefers (rest : Input → Prop) (i : Input) (h : Header) : Prop where
  forward : h.input.Forward
  index_lt : ∀ x, h.indexed = some x → x.1 < x.2
  holds : h.status = true → rest h.input → i.HoldsTarget h.request.profile

theorem TargetRefers.failed
    (hf : h.input.Forward) (hx : h.indexed = none) (hs : h.status = false) :
    TargetRefers rest i h := by
  refine ⟨hf, ?_, ?_⟩
  · intro x h
    rw [hx] at h
    cases h
  · intro h
    rw [hs] at h
    cases h

theorem keyI_bad (hg : h.input.good = false) :
    h.unmarshallObjectKeyI m = { h with status := false } := by
  simp [Header.unmarshallObjectKeyI, Header.read, hg]

theorem keyI_none (hg : h.input.good = true) (e : h.input.readLong m = (none, j)) :
    h.unmarshallObjectKeyI m = { h with input := j, status := false } := by
  simp [Header.unmarshallObjectKeyI, Header.read, hg, e]

theorem keyI_some {len : Int32} (hg : h.input.good = true)
    (e : h.input.readLong m = (some len, j)) : h.unmarshallObjectKeyI m = { h with
      input := (j.skipBytes m (m.sizeT len)).2, status := true,
      request.profile.objectKey := some ⟨j.rd, len.toUInt32.toNat⟩,
      request.profile.objectKeyExtracted := true } := by
  simp [Header.unmarshallObjectKeyI, Header.read, hg, e, Header.skip]

/-- What a key leaves alone. -/
theorem keyI_frame (h : Header) : (h.unmarshallObjectKeyI m).indexed = h.indexed ∧
    (h.unmarshallObjectKeyI m).request.profile.typeId = h.request.profile.typeId ∧
    (h.unmarshallObjectKeyI m).request.operation = h.request.operation := by
  cases hg : h.input.good with
  | false => rw [keyI_bad hg]; exact ⟨rfl, rfl, rfl⟩
  | true =>
    rcases e : h.input.readLong m with ⟨len | len, j⟩
    · rw [keyI_none hg e]; exact ⟨rfl, rfl, rfl⟩
    · rw [keyI_some hg e]; exact ⟨rfl, rfl, rfl⟩

/-- The stream behind a key. -/
theorem keyI_runs (hw : h.input.Wf m) :
    Runs h.input (h.unmarshallObjectKeyI m).input (KeyForward m h.input) := by
  cases hg : h.input.good with
  | false =>
    rw [keyI_bad hg]
    refine (Runs.refl hw).congr (iff_of_true trivial fun h' => ?_)
    rw [hg] at h'
    cases h'
  | true =>
    have hread := readLong_steady h.input hw
    rcases e : h.input.readLong m with ⟨len | len, j⟩
    · rw [e] at hread
      rw [keyI_none hg e]
      refine hread.congr (iff_of_true trivial fun _ len k e' => ?_)
      rw [e] at e'
      cases e'
    · rw [e] at hread
      rw [keyI_some hg e]
      refine (hread.trans (skipBytes_runs (hread.wf hw) (sizeT_lt m len))).congr ?_
      constructor
      · intro hfwd _ len' k e'
        rw [e] at e'
        cases e'
        exact hfwd.2
      · intro hfwd
        exact ⟨trivial, hfwd hg len j e⟩

theorem holds_iff (hr : Runs i j True) (len : Nat) : i.Holds ⟨j.rd, len⟩ ↔ len ≤ j.length := by
  have h1 := hr.ahead trivial
  have h2 := hr.rd_le
  have h3 := hr.wr_eq
  unfold Input.Holds length
  dsimp only
  omega

theorem keySafe_iff (hf : i.Forward) (hw : h.input.Wf m)
    (hr : Runs i h.input True) (hnew : h.Fresh) :
    KeySafe m h.input ↔ TargetRefers (Rest12 m) i (h.unmarshallObjectKeyI m) := by
  have hfh : h.input.Forward := hr.forward.mpr ⟨hf, trivial⟩
  have hruns := keyI_runs hw
  have hfwd : (h.unmarshallObjectKeyI m).input.Forward ↔ KeyForward m h.input := by
    rw [hruns.forward]
    exact and_iff_right hfh
  have hidx : ∀ x, (h.unmarshallObjectKeyI m).indexed = some x → x.1 < x.2 := by
    intro x hx
    rw [(keyI_frame h).1, hnew.indexed] at hx
    cases hx
  have hkey : (∀ len j, h.input.good = true → h.input.readLong m = (some len, j) →
      Rest12 m (j.skipBytes m (m.sizeT len)).2 → len.toUInt32.toNat ≤ j.length) ↔
      ((h.unmarshallObjectKeyI m).status = true → Rest12 m (h.unmarshallObjectKeyI m).input →
        i.HoldsTarget (h.unmarshallObjectKeyI m).request.profile) := by
    cases hg : h.input.good with
    | false => rw [keyI_bad hg]; simp
    | true =>
      have hread := readLong_steady h.input hw
      rcases e : h.input.readLong m with ⟨len | len, j⟩
      · rw [keyI_none hg e]; simp
      · rw [e] at hread
        rw [keyI_some hg e]
        have hh := holds_iff (hr.steady hread) len.toUInt32.toNat
        constructor
        · intro hle _ hrest
          refine ⟨?_, ?_⟩
          · intro s hs
            cases hs
            exact hh.mpr (hle len j rfl rfl hrest)
          · intro s hs
            have hs' : h.request.profile.typeId = some s := hs
            rw [hnew.typeId] at hs'
            cases hs'
        · intro hin len' k _ e' hrest
          cases e'
          exact hh.mp ((hin rfl hrest).objectKey _ rfl)
  constructor
  · intro hsafe
    exact ⟨hfwd.mpr hsafe.1, hidx, hkey.mp fun len j hg => hsafe.2 hg len j⟩
  · intro href
    exact ⟨hfwd.mp href.forward, fun hg len j => hkey.mpr href.holds len j hg⟩

theorem iopProfileI_refers (hf : i.Forward) (hw : h.input.Wf m)
    (hr : Runs i h.input True) (hnew : h.Fresh) :
    Runs h.input (h.unmarshallIopProfileI m).input True ∧
      TargetRefers (Rest12 m) i (h.unmarshallIopProfileI m) := by
  have hread := readTagged_steady h.input hw
  have hfh := (hr.steady hread).forward.mpr ⟨hf, trivial⟩
  rcases e : h.input.readTagged m with ⟨p | p, j⟩
  · rw [e] at hread hfh
    simp only [unmarshallIopProfileI, e]
    exact ⟨hread, .failed hfh hnew.indexed rfl⟩
  · rw [e] at hread hfh
    simp only [unmarshallIopProfileI, e]
    refine ⟨hread, hfh, fun x hx => ?_, fun _ _ => ⟨fun s hs => ?_, fun s hs => ?_⟩⟩
    · have hx' : h.indexed = some x := hx
      rw [hnew.indexed] at hx'
      cases hx'
    · have hs' : h.request.profile.objectKey = some s := hs
      rw [hnew.objectKey] at hs'
      cases hs'
    · have hs' : h.request.profile.typeId = some s := hs
      rw [hnew.typeId] at hs'
      cases hs'

theorem iorProfiles_failed (n : UInt32) {i : Input} {h : Header} (hf : h.input.Forward)
    (hw : h.input.Wf m) (hs : h.status = false) (hx : h.indexed = none) :
    Runs h.input (h.iorProfiles m n).input True ∧
      TargetRefers (Rest12 m) i (h.iorProfiles m n) := by
  have hread := readTaggedSeq_steady h.input hw
  have hfh := hread.forward.mpr ⟨hf, trivial⟩
  rcases e : h.input.readTaggedSeq m with ⟨ps | ps, j⟩
  · rw [e] at hread hfh
    simp only [iorProfiles, e]
    exact ⟨hread, .failed hfh hx rfl⟩
  · rw [e] at hread hfh
    simp only [iorProfiles, e, hs, Bool.false_eq_true, if_false]
    exact ⟨hread, .failed hfh hx rfl⟩

theorem typeId_failed (hs : h.status = false) : h.typeId m = h := by
  simp [Header.typeId, Header.read, hs]

theorem typeId_none (hs : h.status = true) (e : h.input.readLong m = (none, j)) :
    h.typeId m = { h with input := j, status := false } := by
  simp [Header.typeId, Header.read, hs, e]

theorem typeId_some {len : Int32} (hs : h.status = true)
    (e : h.input.readLong m = (some len, j)) : h.typeId m = { h with
      input := (j.skipBytes m (m.sizeT len)).2, status := true,
      request.profile.typeId := some ⟨j.rd, len.toUInt32.toNat⟩ } := by
  simp [Header.typeId, Header.read, hs, e, Header.skip]

theorem iorProfiles_refers (index : UInt32) {i k : Input} {h : Header} {len : Int32} {g : Prop}
    (hr : Runs i k True) (hskip : Runs k h.input g) (hf : i.Forward)
    (hw : i.Wf m) (hs : h.status = true) (hx : h.indexed = none)
    (hkey : h.request.profile.objectKey = none)
    (htype : h.request.profile.typeId = some ⟨k.rd, len.toUInt32.toNat⟩) :
    Runs i (h.iorProfiles m index).input g ∧ (TargetRefers (Rest12 m) i (h.iorProfiles m index) ↔
      g ∧ ∀ ps l, h.input.readTaggedSeq m = (some ps, l) → index.toNat < ps.length ∧
        (Rest12 m l → len.toUInt32.toNat ≤ k.length ∧ NulBefore k k.wr)) := by
  have hrun : Runs i h.input g := (hr.trans hskip).congr (and_iff_right trivial)
  have hread := readTaggedSeq_steady h.input (hrun.wf hw)
  have hh := holds_iff hr len.toUInt32.toNat
  have hnul : NulBefore k k.wr ↔ ∃ q, k.rd ≤ q ∧ q < i.wr ∧ i.memory q = 0 := by
    unfold NulBefore
    rw [hr.wr_eq, hr.memory_eq]
  rcases e : h.input.readTaggedSeq m with ⟨ps | ps, j⟩
  · rw [e] at hread
    have hfinal := hrun.steady hread
    simp only [iorProfiles, e]
    refine ⟨hfinal, fun href => ⟨(hfinal.forward.mp href.forward).2, ?_⟩, fun hg => ?_⟩
    · intro ps l e'
      cases e'
    · exact .failed (hfinal.forward.mpr ⟨hf, hg.1⟩) hx rfl
  · rw [e] at hread
    have hfinal := hrun.steady hread
    simp only [iorProfiles, e, hs, if_true]
    refine ⟨hfinal, fun href => ⟨(hfinal.forward.mp href.forward).2, ?_⟩, fun hg => ?_⟩
    · intro ps' l e'
      cases e'
      refine ⟨href.index_lt _ rfl, fun hrest => ?_⟩
      obtain ⟨hin, hz⟩ := (href.holds rfl hrest).typeId _ htype
      exact ⟨hh.mp hin, hnul.mpr hz⟩
    · obtain ⟨hidx, hrest⟩ := hg.2 ps j rfl
      refine ⟨hfinal.forward.mpr ⟨hf, hg.1⟩, ?_, fun _ hr' => ⟨?_, ?_⟩⟩
      · intro x hx'
        cases hx'
        exact hidx
      · intro s hs'
        rw [hkey] at hs'
        cases hs'
      · intro s hs'
        rw [htype] at hs'
        cases hs'
        exact ⟨hh.mpr (hrest hr').1, hnul.mp (hrest hr').2⟩

theorem iorProfiles_unread (index : UInt32) {i : Input} {h : Header} (hr : Runs i h.input True)
    (hf : i.Forward) (hw : h.input.Wf m) (hs : h.status = false) (hx : h.indexed = none) :
    Runs i (h.iorProfiles m index).input True ∧
      TargetRefers (Rest12 m) i (h.iorProfiles m index) := by
  obtain ⟨h1, h2⟩ := iorProfiles_failed (i := i) index (hr.forward.mpr ⟨hf, trivial⟩) hw hs hx
  exact ⟨hr.steady h1, h2⟩

theorem refAddrI_bad (hg : h.input.good = false) :
    h.unmarshallRefAddrI m = ({ h with status := false } : Header).iorProfiles m 0 := by
  have e : ({ h with status := h.input.good } : Header).read (readUlong m) =
      (none, { h with status := false }) := by
    rw [hg]
    rfl
  rw [unmarshallRefAddrI, e]
  exact congrArg (fun g : Header => g.iorProfiles m 0) (typeId_failed rfl)

theorem refAddrI_none (hg : h.input.good = true) (e1 : h.input.readUlong m = (none, j)) :
    h.unmarshallRefAddrI m = ({ h with input := j, status := false } : Header).iorProfiles m 0 := by
  have e : ({ h with status := h.input.good } : Header).read (readUlong m) =
      (none, { h with input := j, status := false }) := by
    rw [Header.read, if_pos hg, e1]
    rfl
  rw [unmarshallRefAddrI, e]
  exact congrArg (fun g : Header => g.iorProfiles m 0) (typeId_failed rfl)

theorem refAddrI_some {index : UInt32} (hg : h.input.good = true)
    (e1 : h.input.readUlong m = (some index, j)) : h.unmarshallRefAddrI m = (({ h with
      input := j, status := true, request.profile.profileIndex := index } : Header).typeId
        m).iorProfiles m index := by
  have e : ({ h with status := h.input.good } : Header).read (readUlong m) =
      (some index, { h with input := j, status := true }) := by
    rw [Header.read, if_pos hg, e1]
    rfl
  rw [unmarshallRefAddrI, e]

theorem iorSafe_iff (hf : i.Forward) (hi : i.Wf m) (hr : Runs i h.input True) (hnew : h.Fresh) :
    (∃ g, Runs i (h.unmarshallRefAddrI m).input g) ∧
      (IorSafe m h.input ↔ TargetRefers (Rest12 m) i (h.unmarshallRefAddrI m)) := by
  have hw := hr.wf hi
  -- a target that fails in front of the profiles is safe whatever the lengths are
  have hfailed : ∀ (g : Header) (n : UInt32), Runs i g.input True → g.status = false →
      g.indexed = none → h.unmarshallRefAddrI m = g.iorProfiles m n → IorSafe m h.input →
      (∃ g, Runs i (h.unmarshallRefAddrI m).input g) ∧
        (IorSafe m h.input ↔ TargetRefers (Rest12 m) i (h.unmarshallRefAddrI m)) := by
    intro g n hg hs hx e hsafe
    obtain ⟨h1, h2⟩ := iorProfiles_unread n hg hf (hg.wf hi) hs hx
    rw [e]
    exact ⟨⟨_, h1⟩, iff_of_true hsafe h2⟩
  cases hg : h.input.good with
  | false =>
    refine hfailed { h with status := false } 0 hr rfl hnew.indexed (refAddrI_bad hg) fun h' => ?_
    rw [hg] at h'
    cases h'
  | true =>
    have hread := hr.steady (readUlong_steady h.input hw)
    rcases e1 : h.input.readUlong m with ⟨index | index, j⟩
    · rw [e1] at hread
      refine hfailed { h with input := j, status := false } 0 hread rfl hnew.indexed
        (refAddrI_none hg e1) fun _ index' j' e' => ?_
      rw [e1] at e'
      cases e'
    · rw [e1] at hread
      have e := refAddrI_some hg e1
      have hread2 := hread.steady (readLong_steady j (hread.wf hi))
      rcases e2 : j.readLong m with ⟨len | len, k⟩
      · rw [e2] at hread2
        let g : Header := { h with
          input := j, status := true, request.profile.profileIndex := index }
        have ht : g.typeId m = { g with input := k, status := false } := typeId_none (h := g) rfl e2
        have e' : h.unmarshallRefAddrI m = (g.typeId m).iorProfiles m index := e
        rw [ht] at e'
        refine hfailed { g with input := k, status := false } index hread2 rfl hnew.indexed e'
          fun _ index' j' e' len' k' e'' => ?_
        rw [e1] at e'
        cases e'
        rw [e2] at e''
        cases e''
      · rw [e2] at hread2
        have hskip := skipBytes_runs (hread2.wf hi) (sizeT_lt m len)
        let g' : Header := { h with
          input := j, status := true, request.profile.profileIndex := index }
        let g : Header := { g' with
          input := (k.skipBytes m (m.sizeT len)).2, status := true,
          request.profile.typeId := some ⟨k.rd, len.toUInt32.toNat⟩ }
        have ht : g'.typeId m = g := typeId_some (h := g') rfl e2
        rw [ht] at e
        have hg' : g.indexed = none := hnew.indexed
        have hk' : g.request.profile.objectKey = none := hnew.objectKey
        obtain ⟨h1, h2⟩ := iorProfiles_refers index (h := g) hread2 hskip hf hi rfl hg' hk' rfl
        rw [e, h2]
        refine ⟨⟨_, h1⟩, ?_⟩
        constructor
        · intro hsafe
          exact hsafe hg index j e1 len k e2
        · intro hsafe _ index' j' e' len' k' e''
          rw [e1] at e'
          cases e'
          rw [e2] at e''
          cases e''
          exact hsafe

theorem target_none (hs : h.status = true) (e : h.input.readShort m = (none, j)) :
    h.unmarshallTargetAddress m = { h with input := j, status := false } := by
  simp [Header.unmarshallTargetAddress, Header.read, hs, e]

theorem target_some {d : Int16} (hs : h.status = true) (e : h.input.readShort m = (some d, j)) :
    h.unmarshallTargetAddress m =
      let g : Header := { h with input := j, status := true, request.profile.discriminator := d }
      if d = 0 then g.unmarshallObjectKeyI m
      else if d = 1 then g.unmarshallIopProfileI m
      else if d = 2 then g.unmarshallRefAddrI m
      else { g with status := false } := by
  simp [Header.unmarshallTargetAddress, Header.read, hs, e]

/-- **Targets.** All three forms of an address. -/
theorem targetSafe_iff (hf : i.Forward) (hi : i.Wf m)
    (hr : Runs i h.input True) (hnew : h.Fresh) (hs : h.status = true) :
    (∃ g, Runs i (h.unmarshallTargetAddress m).input g) ∧
      (TargetSafe m h.input ↔ TargetRefers (Rest12 m) i (h.unmarshallTargetAddress m)) := by
  have hread := hr.steady (readShort_steady h.input (hr.wf hi))
  rcases e : h.input.readShort m with ⟨d | d, j⟩
  · rw [e] at hread
    rw [target_none hs e]
    refine ⟨⟨_, hread⟩, iff_of_true (fun d j e' => ?_)
      (.failed (hread.forward.mpr ⟨hf, trivial⟩) hnew.indexed rfl)⟩
    rw [e] at e'
    cases e'
  · rw [e] at hread
    have hsafe : TargetSafe m h.input ↔ (d = 0 → KeySafe m j) ∧ (d = 2 → IorSafe m j) := by
      constructor
      · intro hsafe
        exact hsafe d j e
      · intro hsafe d' j' e'
        rw [e] at e'
        cases e'
        exact hsafe
    rw [hsafe, target_some hs e]
    let g : Header := { h with input := j, status := true, request.profile.discriminator := d }
    have hg : g.Fresh := ⟨hnew.objectKey, hnew.typeId, hnew.indexed⟩
    have hgr : Runs i g.input True := hread
    by_cases h0 : d = 0
    · have hkey := keySafe_iff hf (hgr.wf hi) hgr hg
      rw [if_pos h0]
      refine ⟨⟨_, hgr.trans (keyI_runs (hgr.wf hi))⟩, Iff.trans ?_ hkey⟩
      exact ⟨fun h => h.1 h0,
        fun h => ⟨fun _ => h, fun h2 => absurd (h0.symm.trans h2) (by decide)⟩⟩
    · by_cases h1 : d = 1
      · obtain ⟨hrun, href⟩ := iopProfileI_refers hf (hgr.wf hi) hgr hg
        rw [if_neg h0, if_pos h1]
        exact ⟨⟨_, hgr.trans hrun⟩, iff_of_true
          ⟨fun h => absurd h h0, fun h => absurd (h1.symm.trans h) (by decide)⟩ href⟩
      · rw [if_neg h0, if_neg h1]
        by_cases h2 : d = 2
        · obtain ⟨hrun, hior⟩ := iorSafe_iff hf hi hgr hg
          rw [if_pos h2]
          have hcase : (d = 0 → KeySafe m j) ∧ (d = 2 → IorSafe m j) ↔ IorSafe m j :=
            ⟨fun h => h.2 h2, fun h => ⟨fun h' => absurd h' h0, fun _ => h⟩⟩
          exact ⟨hrun, hcase.trans hior⟩
        · rw [if_neg h2]
          exact ⟨⟨_, hgr⟩, iff_of_true ⟨fun h => absurd h h0, fun h => absurd h h2⟩
            (.failed (hgr.forward.mpr ⟨hf, trivial⟩) hnew.indexed rfl)⟩

/-! ## The operation -/

/-- `strlen` stays within `k` characters exactly if there is a NUL among them or
right behind them. -/
theorem strlen_le_iff (mem : Nat → UInt8) (k n p : Nat) (hk : k < n) :
    Header.strlen mem p n ≤ k ↔ ∃ q, p ≤ q ∧ q < p + k + 1 ∧ mem q = 0 := by
  induction n generalizing p k with
  | zero => omega
  | succ n ih =>
    rw [strlen]
    by_cases hz : mem p = 0
    · rw [if_pos hz]
      exact iff_of_true (zero_le _) ⟨p, by omega, by omega, hz⟩
    · rw [if_neg hz]
      cases k with
      | zero =>
        refine iff_of_false (by omega) ?_
        rintro ⟨q, h1, h2, h3⟩
        have : q = p := by omega
        exact hz (this ▸ h3)
      | succ k =>
        rw [Nat.add_le_add_iff_right, ih k (p + 1) (by omega)]
        constructor
        · rintro ⟨q, h1, h2, h3⟩
          exact ⟨q, by omega, by omega, h3⟩
        · rintro ⟨q, h1, h2, h3⟩
          have : q ≠ p := fun h => hz (h ▸ h3)
          exact ⟨q, by omega, by omega, h3⟩

theorem operationLen_le_iff (hj : j.Wf m) {length : UInt32}
    (hfit : j.rd + length.toNat ≤ j.wr) :
    j.rd + Header.operationLen m j (length - 1).toNat ≤ j.wr ↔
      (length = 0 → 2 ^ 32 - 1 ≤ j.length) ∧ (length = 1 → NulBefore j (j.wr + 1)) := by
  have h2 := hj.room
  have hleft : j.length = j.wr - j.rd := rfl
  by_cases h0 : length = 0
  · subst h0
    have hlen : ((0 : UInt32) - 1).toNat = 2 ^ 32 - 1 := rfl
    rw [operationLen, hlen, if_neg (by decide)]
    constructor
    · intro h
      exact ⟨fun _ => by omega, fun h => absurd h (by decide)⟩
    · intro h
      have := h.1 rfl
      omega
  · by_cases h1' : length = 1
    · subst h1'
      have hlen : ((1 : UInt32) - 1).toNat = 0 := rfl
      rw [operationLen, hlen, if_pos rfl]
      have hstr : strlen j.memory j.rd (m.space - j.rd) ≤ j.wr - j.rd ↔
          NulBefore j (j.wr + 1) := by
        have hend : j.rd + (j.wr - j.rd) + 1 = j.wr + 1 := by omega
        have h := strlen_le_iff j.memory (j.wr - j.rd) (m.space - j.rd) j.rd (by omega)
        rwa [hend] at h
      constructor
      · intro h
        exact ⟨fun h => absurd h (by decide), fun _ => hstr.mp (by omega)⟩
      · intro h
        have := hstr.mpr (h.2 rfl)
        omega
    · have hpos : 1 ≤ length.toNat := by
        have : length.toNat ≠ 0 := fun h => h0 (UInt32.toNat_inj.mp h)
        omega
      have hlen : (length - 1).toNat = length.toNat - 1 :=
        UInt32.toNat_sub_of_le _ _ (UInt32.le_iff_toNat_le.mpr hpos)
      have hne : length.toNat ≠ 1 := fun h => h1' (UInt32.toNat_inj.mp h)
      rw [operationLen, hlen, if_neg (by omega)]
      exact iff_of_true (by omega) ⟨fun h => absurd h h0, fun h => absurd h h1'⟩

theorem operation_failed (hs : h.status = false) : h.operation m = h := by
  simp [Header.operation, Header.read, hs]

theorem operation_none (hs : h.status = true) (e : h.input.readUlong m = (none, j)) :
    h.operation m = { h with input := j, status := false } := by
  simp [Header.operation, Header.read, hs, e]

theorem operation_some {length : UInt32} (hs : h.status = true)
    (e : h.input.readUlong m = (some length, j)) : h.operation m = { h with
      input := (j.skipBytes m length.toNat).2, status := (j.skipBytes m length.toNat).1,
      request.operation := some ⟨j.rd, Header.operationLen m j (length - 1).toNat⟩ } := by
  simp [Header.operation, Header.read, hs, e]

/-- What the rest of a header begins with: an operation that can be skipped. -/
def Skips (m : Machine) (i : Input) : Prop :=
  ∃ length j, i.readUlong m = (some length, j) ∧ (j.skipBytes m length.toNat).1 = true

/-- **Operations.** The name is safe exactly if the stream goes forward and, when the
rest of the header can be read, the name lies in the message. -/
theorem nameSafe_iff {g : Prop} (hi : i.Wf m)
    (hr : Runs i h.input g) (hfh : h.input.Forward) (hs : h.status = true)
    (hrest : rest h.input → Skips m h.input) :
    NameSafe m rest h.input ↔ (h.operation m).input.Forward ∧
      (rest h.input → ∀ s, (h.operation m).request.operation = some s → i.Holds s) := by
  have hw := hr.wf hi
  have hread := readUlong_steady h.input hw
  rcases e : h.input.readUlong m with ⟨length | length, j⟩
  · rw [e] at hread
    rw [operation_none hs e]
    refine iff_of_true (fun length j e' => ?_)
      ⟨hread.forward.mpr ⟨hfh, trivial⟩, fun h' => ?_⟩
    · rw [e] at e'
      cases e'
    · obtain ⟨length, j', e', -⟩ := hrest h'
      rw [e] at e'
      cases e'
  · rw [e] at hread
    have hjw := hread.wf hw
    have hskip := skipBytes_runs hjw (ulong_lt m length)
    have hfj := hread.forward.mpr ⟨hfh, trivial⟩
    have hgi := hr.forward.mp hfh
    rw [operation_some hs e]
    have hfwd : (j.skipBytes m length.toNat).2.Forward ↔ j.rd + length.toNat < m.space := by
      rw [hskip.forward]
      exact and_iff_right hfj
    -- with the rest readable the skip has succeeded, so the name is where it says
    have hname : j.rd + length.toNat < m.space → rest h.input →
        ((∀ s, some (⟨j.rd, operationLen m j (length - 1).toNat⟩ : Span) = some s →
          i.Holds s) ↔ (length = 0 → 2 ^ 32 - 1 ≤ j.length) ∧
            (length = 1 → NulBefore j (j.wr + 1))) := by
      intro hlt hr'
      obtain ⟨length', j', e', hok⟩ := hrest hr'
      rw [e] at e'
      cases e'
      rw [← operationLen_le_iff hjw ((skipBytes_true hlt).mp hok)]
      have hahead := Nat.le_trans (hr.ahead hgi.2) (hread.ahead trivial)
      have hwr := hread.wr_eq.trans hr.wr_eq
      constructor
      · intro h
        have := (h _ rfl).2
        rwa [← hwr] at this
      · intro h s hs'
        cases hs'
        exact ⟨hahead, by rw [← hwr]; exact h⟩
    constructor
    · intro hsafe
      obtain ⟨hlt, hin⟩ := hsafe length j e
      exact ⟨hfwd.mpr hlt, fun hr' => (hname hlt hr').mpr (hin hr')⟩
    · intro hin length' j' e'
      rw [e] at e'
      cases e'
      have hlt := hfwd.mp hin.1
      exact ⟨hlt, fun hr' => (hname hlt hr').mp (hin.2 hr')⟩

theorem operation_runs (hw : h.input.Wf m) : ∃ g, Runs h.input (h.operation m).input g := by
  cases hs : h.status with
  | false => rw [operation_failed hs]; exact ⟨_, .refl hw⟩
  | true =>
    have hread := readUlong_steady h.input hw
    rcases e : h.input.readUlong m with ⟨length | length, j⟩
    · rw [e] at hread
      rw [operation_none hs e]
      exact ⟨_, hread⟩
    · rw [e] at hread
      rw [operation_some hs e]
      exact ⟨_, hread.trans (skipBytes_runs (hread.wf hw) (ulong_lt m length))⟩

theorem operation_frame (h : Header) : (h.operation m).indexed = h.indexed ∧
    (h.operation m).request.profile = h.request.profile := by
  cases hs : h.status with
  | false => rw [operation_failed hs]; exact ⟨rfl, rfl⟩
  | true =>
    rcases e : h.input.readUlong m with ⟨length | length, j⟩
    · rw [operation_none hs e]; exact ⟨rfl, rfl⟩
    · rw [operation_some hs e]; exact ⟨rfl, rfl⟩

/-! ## The ends of the parsers -/

theorem finish12_frame (hw : h.input.Wf m) :
    Runs h.input (h.finish12 m).2.input True ∧ (h.finish12 m).2.indexed = h.indexed ∧
      (h.finish12 m).2.request.profile = h.request.profile ∧
      (h.finish12 m).2.request.operation = h.request.operation := by
  have hread := readTaggedSeq_steady h.input hw
  rcases e : h.input.readTaggedSeq m with ⟨cs | cs, j⟩
  · rw [e] at hread
    simp only [finish12, e]
    exact ⟨hread, trivial, trivial, trivial⟩
  · rw [e] at hread
    simp only [finish12, e]
    refine ⟨?_, trivial, trivial, trivial⟩
    split
    · exact hread.steady (alignReadPtr_steady (hread.wf hw))
    · exact hread

theorem finish12_zero (hs : h.status = true) :
    ((h.operation m).finish12 m).1 = 0 ↔ Rest12 m h.input := by
  rcases e : h.input.readUlong m with ⟨length | length, j⟩
  · refine iff_of_false ?_ ?_
    · rw [operation_none hs e]
      simp only [finish12]
      split <;> simp
    · rintro ⟨length, j', e', -⟩
      rw [e] at e'
      cases e'
  · rw [operation_some hs e]
    simp only [Rest12, e, finish12, Prod.mk.injEq, Option.some.injEq]
    constructor
    · intro hz
      refine ⟨length, j, ⟨rfl, rfl⟩, ?_⟩
      rcases e2 : (j.skipBytes m length.toNat).2.readTaggedSeq m with ⟨cs | cs, k⟩
      · rw [e2] at hz; cases hz
      · rw [e2] at hz
        simp only at hz
        split at hz
        · rename_i hok
          exact ⟨hok, rfl⟩
        · cases hz
    · rintro ⟨length', j', ⟨rfl, rfl⟩, hok, hsome⟩
      rcases e2 : (j.skipBytes m length.toNat).2.readTaggedSeq m with ⟨cs | cs, k⟩
      · rw [e2] at hsome; cases hsome
      · simp only [hok, if_true]

theorem finish12_failed (hs : h.status = false) : ((h.operation m).finish12 m).1 ≠ 0 := by
  rw [operation_failed hs]
  simp only [finish12]
  split <;> simp [hs]

theorem finish10_frame (hw : h.input.Wf m) :
    Runs h.input (h.finish10 m).2.input True ∧ (h.finish10 m).2.indexed = h.indexed ∧
      (h.finish10 m).2.request.profile = h.request.profile ∧
      (h.finish10 m).2.request.operation = h.request.operation := by
  unfold finish10
  split
  · exact ⟨readOctetSeq_steady _ hw, rfl, rfl, rfl⟩
  · exact ⟨.refl hw, rfl, rfl, rfl⟩

theorem finish10_zero (hs : h.status = true) :
    ((h.operation m).finish10 m).1 = 0 ↔ Rest10 m h.input := by
  rcases e : h.input.readUlong m with ⟨length | length, j⟩
  · refine iff_of_false ?_ ?_
    · rw [operation_none hs e]
      simp [finish10]
    · rintro ⟨length, j', e', -⟩
      rw [e] at e'
      cases e'
  · rw [operation_some hs e]
    simp only [Rest10, e, finish10, Prod.mk.injEq, Option.some.injEq]
    constructor
    · intro hz
      split at hz
      · rename_i hok
        refine ⟨length, j, ⟨rfl, rfl⟩, hok, ?_⟩
        by_contra hbad
        rw [if_neg hbad] at hz
        cases hz
      · cases hz
    · rintro ⟨length', j', ⟨rfl, rfl⟩, hok, hgood⟩
      simp only [hok, if_true, hgood]

theorem finish10_failed (hs : h.status = false) : ((h.operation m).finish10 m).1 ≠ 0 := by
  rw [operation_failed hs]
  simp [finish10, hs]

/-! ## The parsers -/

/-- A target, the operation and the end of a parser: each refers to the message on
its own. -/
theorem refersInside_parts
    {finish : Header → Int × Header} (hi : i.Wf m) (hrun : ∃ g, Runs i h.input g)
    (hskips : rest h.input → Skips m h.input)
    (hzero : h.status = true → ((finish (h.operation m)).1 = 0 ↔ rest h.input))
    (hfailed : h.status = false → (finish (h.operation m)).1 ≠ 0)
    (hframe : ∀ h : Header, h.input.Wf m → Runs h.input (finish h).2.input True ∧
      (finish h).2.indexed = h.indexed ∧ (finish h).2.request.profile = h.request.profile ∧
      (finish h).2.request.operation = h.request.operation) :
    RefersInside i (finish (h.operation m)) ↔
      TargetRefers rest i h ∧ (h.status = true → NameSafe m rest h.input) := by
  obtain ⟨g, hrun⟩ := hrun
  obtain ⟨g', hop⟩ := operation_runs (hrun.wf hi)
  obtain ⟨hend, hidx, hprof, hname⟩ := hframe (h.operation m) (hop.wf (hrun.wf hi))
  obtain ⟨hidx', hprof'⟩ := operation_frame (m := m) h
  rw [hidx'] at hidx
  rw [hprof'] at hprof
  have hends : (finish (h.operation m)).2.input.Forward ↔ (h.operation m).input.Forward := by
    rw [hend.forward]
    exact and_iff_left trivial
  constructor
  · intro href
    have hfo := hends.mp href.forward
    have hfh := (hop.forward.mp hfo).1
    refine ⟨⟨hfh, ?_, ?_⟩, ?_⟩
    · rw [← hidx]
      exact href.index_lt
    · intro hs hr
      rw [← hprof]
      exact href.target ((hzero hs).mpr hr)
    · intro hs
      refine (nameSafe_iff hi hrun hfh hs hskips).mpr ⟨hfo, fun hr => ?_⟩
      rw [← hname]
      exact href.operation ((hzero hs).mpr hr)
  · rintro ⟨ht, hn⟩
    cases hs : h.status with
    | false =>
      have hsame := operation_failed (m := m) hs
      refine ⟨hends.mpr (hsame.symm ▸ ht.forward), by rw [hidx]; exact ht.index_lt, ?_, ?_⟩
      · intro hz
        exact absurd hz (hfailed hs)
      · intro hz
        exact absurd hz (hfailed hs)
    | true =>
      obtain ⟨hfo, hin⟩ := (nameSafe_iff hi hrun ht.forward hs hskips).mp (hn hs)
      refine ⟨hends.mpr hfo, by rw [hidx]; exact ht.index_lt, ?_, ?_⟩
      · intro hz
        rw [hname]
        exact hin ((hzero hs).mp hz)
      · intro hz
        rw [hprof]
        exact ht.holds hs ((hzero hs).mp hz)

/-- Before anything is read nothing is referred to. -/
theorem fresh_of_keeps (hk : Header.Keeps (Header.start i) h) : h.Fresh :=
  ⟨by rw [hk.profile]; rfl, by rw [hk.profile]; rfl, hk.indexed⟩

theorem parse12_iff (hi : i.Wf m) (hf : i.Forward) :
    RefersInside i (parseRequestHeader12 m i) ↔ Safe12 m i := by
  have hk := before12_keeps hi
  have hr : Runs i (before12 m i).input True := hk.runs
  have hnew := fresh_of_keeps hk
  -- without the fields in front of it the target is not looked at
  have htarget : (∃ g, Runs i ((before12 m i).unmarshallTargetAddress m).input g) ∧
      (((before12 m i).status = true → TargetSafe m (before12 m i).input) ↔
        TargetRefers (Rest12 m) i ((before12 m i).unmarshallTargetAddress m)) := by
    cases hs : (before12 m i).status with
    | true =>
      obtain ⟨h1, h2⟩ := targetSafe_iff hf hi hr hnew hs
      exact ⟨h1, by rw [← h2]; simp⟩
    | false =>
      have e : (Header.before12 m i).unmarshallTargetAddress m = Header.before12 m i := by
        simp [Header.unmarshallTargetAddress, Header.read, hs]
      rw [e]
      exact ⟨⟨_, hr⟩, iff_of_true (fun h => Bool.noConfusion h)
        (.failed (hr.forward.mpr ⟨hf, trivial⟩) hnew.indexed hs)⟩
  rw [Safe12, htarget.2]
  exact refersInside_parts hi htarget.1 (fun ⟨l, j, e, hok, _⟩ => ⟨l, j, e, hok⟩) finish12_zero
    finish12_failed fun _ hw => finish12_frame hw

/-- Behind a key that has failed nothing is good any more. -/
theorem keyI_holds (hw : h.input.Wf m) (hr : Runs i h.input True)
    (hnew : h.Fresh) (hsafe : KeyForward m h.input)
    (hgood : (h.unmarshallObjectKeyI m).input.good = true) :
    i.HoldsTarget (h.unmarshallObjectKeyI m).request.profile := by
  refine ⟨?_, ?_⟩
  · cases hg : h.input.good with
    | false =>
      rw [keyI_bad hg] at hgood
      rw [hg] at hgood
      cases hgood
    | true =>
      have hread := readLong_steady h.input hw
      rcases e : h.input.readLong m with ⟨len | len, j⟩
      · rw [keyI_none hg e]
        intro s hs
        have hs' : h.request.profile.objectKey = some s := hs
        rw [hnew.objectKey] at hs'
        cases hs'
      · rw [e] at hread
        rw [keyI_some hg e] at hgood ⊢
        have hlt := hsafe hg len j e
        have hok : (j.skipBytes m (m.sizeT len)).1 = true := by
          by_contra hbad
          rw [Bool.not_eq_true] at hbad
          rw [skipBytes_false hbad] at hgood
          cases hgood
        have hfit := (skipBytes_true hlt).mp hok
        have hle := ulong_le_sizeT m len
        intro s hs
        cases hs
        apply (holds_iff (hr.steady hread) _).mpr
        show len.toUInt32.toNat ≤ j.wr - j.rd
        omega
  · intro s hs
    rw [(keyI_frame h).2.1, hnew.typeId] at hs
    cases hs

theorem parse10_iff (hi : i.Wf m) (hf : i.Forward) :
    RefersInside i (parseRequestHeader10 m i) ↔ Safe10 m i := by
  have hread := readTaggedSeq_steady i hi
  rcases e : i.readTaggedSeq m with ⟨cs | cs, j⟩
  · rw [e] at hread
    have hparse : parseRequestHeader10 m i = (-1, start j) := by
      simp only [parseRequestHeader10, e]
    rw [hparse]
    refine iff_of_true ⟨hread.forward.mpr ⟨hf, trivial⟩, fun x hx => ?_, fun hz => ?_,
      fun hz => ?_⟩ fun cs j e' => ?_
    · cases hx
    · cases hz
    · cases hz
    · rw [e] at e'
      cases e'
  · rw [e] at hread
    have hjw := hread.wf hi
    have hk := before10_keeps hjw cs
    have hr : Runs i (before10 m j cs).input True := hread.steady hk.runs
    have hnew := fresh_of_keeps hk
    have hsafe : Safe10 m i ↔
        ((before10 m j cs).status = true → KeyForward m (before10 m j cs).input) ∧
        (((before10 m j cs).target10 m).status = true →
          NameSafe m (Rest10 m) ((before10 m j cs).target10 m).input) := by
      constructor
      · intro hsafe
        exact hsafe cs j e
      · intro hsafe cs' j' e'
        rw [e] at e'
        cases e'
        exact hsafe
    have htarget : (∃ g, Runs i ((before10 m j cs).target10 m).input g) ∧
        (((before10 m j cs).status = true → KeyForward m (before10 m j cs).input) ↔
          TargetRefers (Rest10 m) i ((before10 m j cs).target10 m)) := by
      unfold target10
      cases hs : (before10 m j cs).status with
      | false =>
        simp only [Bool.false_eq_true, if_false]
        exact ⟨⟨_, hr⟩, iff_of_true (fun h => h.elim)
          (.failed (hr.forward.mpr ⟨hf, trivial⟩) hnew.indexed hs)⟩
      | true =>
        let g : Header := { before10 m j cs with request.profile.discriminator := 0 }
        have hg : g.Fresh := ⟨hnew.objectKey, hnew.typeId, hnew.indexed⟩
        have hgr : Runs i g.input True := hr
        have hrun := keyI_runs (hgr.wf hi)
        have hfwd : (g.unmarshallObjectKeyI m).input.Forward ↔ KeyForward m g.input := by
          rw [hrun.forward]
          exact and_iff_right (hgr.forward.mpr ⟨hf, trivial⟩)
        simp only [if_true]
        refine ⟨⟨_, hgr.trans hrun⟩, fun h => ⟨hfwd.mpr (h trivial), ?_, ?_⟩,
          fun h _ => hfwd.mp h.forward⟩
        · intro x hx
          have hx' : (g.unmarshallObjectKeyI m).indexed = some x := hx
          rw [(keyI_frame g).1, hg.indexed] at hx'
          cases hx'
        · intro _ hrest
          -- the good bit at the end says that the key has been skipped
          obtain ⟨length, k, e1, -, hgood⟩ := hrest
          have hw1 := hrun.wf (hgr.wf hi)
          have h1 := readUlong_steady (g.unmarshallObjectKeyI m).input hw1
          have e1' : (g.unmarshallObjectKeyI m).input.readUlong m = (some length, k) := e1
          rw [e1'] at h1
          have h2 := skipBytes_runs (h1.wf hw1) (ulong_lt m length)
          have h3 := readOctetSeq_steady _ (h2.wf (h1.wf hw1))
          exact keyI_holds (hgr.wf hi) hgr hg (h trivial) (h1.good (h2.good (h3.good hgood)))
    have hparse : parseRequestHeader10 m i =
        (((before10 m j cs).target10 m).operation m).finish10 m := by
      simp only [parseRequestHeader10, e]
    rw [hparse, hsafe, htarget.2]
    exact refersInside_parts hi htarget.1 (fun ⟨l, j, e, hok, _⟩ => ⟨l, j, e, hok⟩) finish10_zero
      finish10_failed fun _ hw => finish10_frame hw

/-- **Bounds.** For every version and every message: the read pointer never moves
backwards, the profiles are indexed below their length, and what a request that
was parsed refers to lies in the message, exactly if the lengths in the message
are safe. -/
theorem refersInside_iff (m : Machine) (v : Version) (i : Input) (hi : i.Wf m)
    (hnew : i.moves = []) : RefersInside i (parseRequestHeader m v i) ↔ Safe m v i := by
  have hf : i.Forward := by
    rw [Input.Forward, hnew]
    intro mv hmv
    cases hmv
  cases v with
  | v10 => exact parse10_iff hi hf
  | v11 => exact parse10_iff hi hf
  | v12 => exact parse12_iff hi hf

/-- A 1.2 request at address 4096, in front of its header: request 7, a two way
call, the address of a key of -12 octets, and 16 octets more. -/
def negativeKey : Input :=
  let msg : List UInt8 := [7, 0, 0, 0, 3, 0, 0, 0, 0, 0, 0, 0, 0xf4, 0xff, 0xff, 0xff,
    2, 0, 0, 0, 97, 0, 0, 0, 0, 0, 0, 0, 0, 0, 0, 0]
  ⟨fun p => msg.getD (p - 4096) 0, 4096, 4128, true, []⟩

theorem refersInside_iff_negativeKey :
    RefersInside negativeKey (parseRequestHeader host64 .v12 negativeKey) ↔
      Safe host64 .v12 negativeKey :=
  refersInside_iff host64 .v12 negativeKey ⟨by decide, by decide⟩ rfl

/-- The skip over the key goes back by 12 octets. -/
theorem negative_key_length :
    ¬ RefersInside negativeKey (parseRequestHeader host64 .v12 negativeKey) := by
  intro h
  have hback : ∃ mv ∈ (parseRequestHeader host64 .v12 negativeKey).2.input.moves,
      mv.2 < mv.1 := by decide
  obtain ⟨mv, hmem, hlt⟩ := hback
  exact absurd (h.forward mv hmem) (Nat.not_le_of_lt hlt)

end Atcd.Giop.RequestHeader
