import Atcd.Event.MessageReceiver
import Atcd.Event.SenderRuns
/-!
# A message in datagrams, received

The receiver reads back the header that the sender has written, and takes the fragment if
its fields are consistent: then the bytes that have arrived are in place in the request
(`Gathering`), which is decoded when the last one is.

Results:
- `read_datagram`: the header that is read;
- `Gathering.handleInput`: what one datagram adds to the request;
- `survives_iff`: which messages are decoded as they were sent, whatever the order and
  the number of the datagrams.
-/
namespace Atcd.Event

open List Receiver Fragment RequestEntry Nat
open Atcd.Core (Endian store load pieceStart overwrite)

/-! ## The header -/

theorem word_at {ws : List (List UInt8)} (h : ∀ w ∈ ws, w.length = 4) {k : Nat} {w : List UInt8}
    (hk : ws[k]? = some w) : (ws.flatten.drop (4 * k)).take 4 = w := by
  induction ws generalizing k with
  | nil => cases hk
  | cons v ws ih =>
    have hv := h v mem_cons_self
    cases k with
    | zero =>
      cases hk
      rw [Nat.mul_zero, drop_zero, flatten_cons, take_left' hv]
    | succ k =>
      rw [flatten_cons, show 4 * (k + 1) = v.length + 4 * k by omega, drop_length_add_append]
      exact ih (fun w hw => h w (mem_cons_of_mem _ hw)) (by simpa using hk)

def Fragment.padding (f : Fragment) (c : Config) : List UInt8 :=
  if c.checksum then store .big 4 (c.crc32 (f.fields c.order ++ f.data)).toNat else [0, 0, 0, 0]

/-- The words of a header. -/
def Fragment.words (f : Fragment) (c : Config) : List (List UInt8) :=
  [[flag c.order, 65, 66, 67], store c.order 4 f.requestId, store c.order 4 f.requestSize,
    store c.order 4 f.size, store c.order 4 f.offset, store c.order 4 f.id, store c.order 4 f.count,
    f.padding c]

theorem length_padding (f : Fragment) (c : Config) : (f.padding c).length = 4 := by
  unfold padding
  split <;> simp

theorem length_fields (f : Fragment) (e : Endian) : (f.fields e).length = 28 := by
  simp [fields]

theorem length_words (f : Fragment) (c : Config) : ∀ w ∈ f.words c, w.length = 4 := by
  simp [words, length_padding]

theorem datagram_eq (f : Fragment) (c : Config) :
    f.datagram c = f.fields c.order ++ f.padding c ++ f.data := rfl

theorem words_flatten (f : Fragment) (c : Config) :
    (f.words c).flatten = f.fields c.order ++ f.padding c := by
  simp [words, fields]

theorem take_datagram (f : Fragment) (c : Config) :
    (f.datagram c).take headerSize = (f.words c).flatten := by
  rw [datagram_eq, words_flatten]
  refine take_left' ?_
  rw [length_append, length_fields, length_padding]
  rfl

theorem drop_datagram (f : Fragment) (c : Config) : (f.datagram c).drop headerSize = f.data := by
  rw [datagram_eq]
  refine drop_left' ?_
  rw [length_append, length_fields, length_padding]
  rfl

/-- The numbers of a header have 32 bits. -/
structure Fragment.Word (f : Fragment) : Prop where
  requestId : f.requestId < 2 ^ 32
  requestSize : f.requestSize < 2 ^ 32
  size : f.size < 2 ^ 32
  offset : f.offset < 2 ^ 32
  id : f.id < 2 ^ 32
  count : f.count < 2 ^ 32

/-- The header that a fragment is sent with. -/
def Fragment.header (f : Fragment) (c : Config) : McastHeader where
  order := c.order
  requestId := f.requestId
  requestSize := f.requestSize
  fragmentSize := f.size
  fragmentOffset := f.offset
  fragmentId := f.id
  fragmentCount := f.count
  crc := if c.checksum then (c.crc32 (f.fields c.order ++ f.data)).toNat else 0

theorem ulong_words {f : Fragment} {c : Config} {k v : Nat} (e : Endian) (hv : v < 2 ^ 32)
    (hk : (f.words c)[k]? = some (store e 4 v)) : ulong e (f.words c).flatten k = v := by
  rw [ulong, word_at (length_words f c) hk]
  exact Core.load_store e hv

/-- **Header.** -/
theorem read_datagram (c : Config) {f : Fragment} (hf : f.Word) (n : Nat) :
    McastHeader.read ((f.datagram c).take headerSize) n =
      if (f.header c).Invalid n then none else some (f.header c) := by
  rw [take_datagram]
  have hflag : byteOrder ((f.words c).flatten.getD 0 0) = some c.order := by
    cases c with
    | mk order => cases order <;> rfl
  have hmagic : ((f.words c).flatten.drop 1).take 3 = [65, 66, 67] := rfl
  have hcrc : ulong .big (f.words c).flatten 7 = (f.header c).crc := by
    unfold header
    dsimp only
    split
    next h =>
      refine ulong_words .big (UInt32.toNat_lt _) ?_
      simp [words, padding, h]
    next h =>
      refine ulong_words .big (by decide) ?_
      simp [words, padding, h]
      rfl
  have h1 := ulong_words (c := c) (k := 1) c.order hf.requestId rfl
  have h2 := ulong_words (c := c) (k := 2) c.order hf.requestSize rfl
  have h3 := ulong_words (c := c) (k := 3) c.order hf.size rfl
  have h4 := ulong_words (c := c) (k := 4) c.order hf.offset rfl
  have h5 := ulong_words (c := c) (k := 5) c.order hf.id rfl
  have h6 := ulong_words (c := c) (k := 6) c.order hf.count rfl
  rw [McastHeader.read, hflag, Option.bind_some, if_pos hmagic]
  simp only [h1, h2, h3, h4, h5, h6, hcrc]
  rfl

/-! ## One datagram -/

/-- The bytes of a fragment that fit into the buffer of the receiver. -/
def Fragment.arrives (f : Fragment) (l : Limits) : List UInt8 := f.data.take l.maxDgramSize

/-- The receiver takes the fragment: the fields are consistent, and so is the checksum. -/
def Fragment.Accepted (f : Fragment) (c : Config) (l : Limits) : Prop :=
  ¬(f.header c).Invalid (headerSize + (f.arrives l).length) ∧
    (l.checkCrc = true →
      (f.header c).crc = (c.crc32 (f.fields c.order ++ f.arrives l)).toNat)

/-- A fragment on its way: with what the stack and the heap hold when it arrives. -/
structure Transit where
  fragment : Fragment
  stack : Nat → UInt8
  heap : Nat → UInt8

def Transit.arrival (a : Transit) (c : Config) : Arrival :=
  ⟨a.fragment.datagram c, a.stack, a.heap⟩

instance (f : Fragment) (c : Config) (l : Limits) : Decidable (f.Accepted c l) :=
  inferInstanceAs (Decidable (_ ∧ _))

theorem handleInput_transit {c : Config} {l : Limits} {a : Transit} (hf : a.fragment.Word)
    (s : Receiver) : s.handleInput c l (a.arrival c) = if a.fragment.Accepted c l then
        if a.fragment.count = 1 then
          s.whole (a.fragment.header c) (a.arrival c) (a.fragment.arrives l)
        else s.processFragment (a.fragment.header c) (a.arrival c) (a.fragment.arrives l)
      else s := by
  have hlen : ((a.arrival c).datagram.take headerSize).length = headerSize := by
    rw [Transit.arrival, take_datagram, words_flatten, length_append, length_fields,
      length_padding]
    rfl
  have hdata : ((a.arrival c).datagram.drop headerSize).take l.maxDgramSize =
      a.fragment.arrives l := by
    rw [Transit.arrival, drop_datagram]
    rfl
  have h28 : ((a.arrival c).datagram.take headerSize).take 28 = a.fragment.fields c.order := by
    rw [Transit.arrival, take_datagram, words_flatten]
    exact take_left' (length_fields _ _)
  have hread := read_datagram c hf (headerSize + (a.fragment.arrives l).length)
  unfold handleInput
  dsimp only
  rw [hlen, hdata, if_neg (by omega), h28]
  by_cases hinvalid : (a.fragment.header c).Invalid (headerSize + (a.fragment.arrives l).length)
  · rw [if_pos hinvalid] at hread
    rw [if_neg fun h => h.1 hinvalid]
    simp only [Transit.arrival, hread]
  · rw [if_neg hinvalid] at hread
    simp only [Transit.arrival, hread]
    by_cases hcrc : l.checkCrc = true → (a.fragment.header c).crc =
        (c.crc32 (a.fragment.fields c.order ++ a.fragment.arrives l)).toNat
    · rw [if_neg (by rw [not_and, not_not]; exact hcrc),
        if_pos (show a.fragment.Accepted c l from ⟨hinvalid, hcrc⟩)]
      rfl
    · rw [if_neg fun h : a.fragment.Accepted c l => hcrc h.2]
      exact if_pos (by rwa [Classical.not_imp] at hcrc)

/-! ## The requests -/

def Receiver.slot (s : Receiver) (requestId : Nat) : Slot :=
  s.getSourceEntry.fragmentedRequests requestId

/-- The window of a new source. -/
def Receiver.Window (s : Receiver) : Prop :=
  s.getSourceEntry.idRangeLow = 0 ∧ s.getSourceEntry.idRangeHigh = maxRequests - 1 ∧
    s.getSourceEntry.size = maxRequests

theorem getRequest_window {s : Receiver} (h : s.Window) {requestId : Nat}
    (hid : requestId < maxRequests) :
    s.getSourceEntry.getRequest requestId = some (s.getSourceEntry, requestId) := by
  obtain ⟨hlow, hhigh, hsize⟩ := h
  unfold Requests.getRequest
  rw [hlow, if_neg (not_lt_zero _), hhigh, if_neg (by omega)]
  dsimp only
  rw [hsize, mod_eq_of_lt hid]

/-- The fragments in the set are in place in the entry, and marked. -/
structure RequestEntry.Holds (q : RequestEntry) (e : Endian) (r : Request) (ps : List (List UInt8))
    (S : Nat → Prop) : Prop where
  order : q.order = e
  requestSize : q.requestSize = r.size
  fragmentCount : q.fragmentCount = ps.length
  filled : Core.Filled ps S q.payload
  words : q.receivedFragments.length = ps.length / 32 + 1
  marked : ∀ j, j / 32 ≤ ps.length / 32 →
    (Core.WordSet.test q.receivedFragments j = true ↔ ps.length ≤ j ∨ S j)

/-- The fragments in the set have been received for the request: their bytes, as they
landed, are in place, and once all of them are they have been decoded. -/
structure Gathering (e : Endian) (r : Request) (ps : List (List UInt8)) (S : Nat → Prop)
    (s : Receiver) : Prop where
  window : s.Window
  slot : match s.slot r.id with
    | .empty => (∀ i < ps.length, ¬S i) ∧ s.decoded = []
    | .entry q => q.Holds e r ps S ∧ (¬∀ i < ps.length, S i) ∧ ps.length ≠ 1 ∧ s.decoded = []
    | .completed => (∀ i < ps.length, S i) ∧ s.decoded = [(e, ps.flatten)]

theorem gathering_start (e : Endian) (r : Request) (ps : List (List UInt8)) :
    Gathering e r ps (fun _ => False) ⟨none, []⟩ where
  window := ⟨rfl, rfl, rfl⟩
  slot := ⟨fun _ _ => id, rfl⟩

theorem window_put {s : Receiver} (h : s.Window) (index : Nat) (slot : Slot)
    (d : List (Endian × List UInt8)) :
    (⟨some (s.getSourceEntry.put index slot), d⟩ : Receiver).Window := h

theorem slot_put (s : Receiver) (index : Nat) (slot : Slot) (d : List (Endian × List UInt8)) :
    (⟨some (s.getSourceEntry.put index slot), d⟩ : Receiver).slot index = slot := by
  simp [Receiver.slot, Receiver.getSourceEntry, Requests.put]

section fragment
variable {e : Endian} {r : Request} {ps : List (List UInt8)} {S S' : Nat → Prop}

/-- A fragment of the request, and the bytes that it lands with. -/
structure Lands (e : Endian) (r : Request) (ps : List (List UInt8)) (i : Nat) (h : McastHeader)
    (p : List UInt8) : Prop where
  piece : ps[i]? = some p
  order : h.order = e
  requestId : h.requestId = r.id
  requestSize : h.requestSize = r.size
  fragmentSize : h.fragmentSize = p.length
  fragmentOffset : h.fragmentOffset = pieceStart ps i
  fragmentId : h.fragmentId = i
  fragmentCount : h.fragmentCount = ps.length
  inside : pieceStart ps i < r.size

variable {h : McastHeader} {p : List UInt8} {q : RequestEntry}

theorem holds_new {i : Nat} (hl : Lands e r ps i h p) (hsize : r.size = ps.flatten.length)
    (heap : Nat → UInt8) (hS : ∀ j < ps.length, ¬S j) :
    (RequestEntry.new h heap).Holds e r ps S where
  order := hl.order
  requestSize := hl.requestSize
  fragmentCount := hl.fragmentCount
  filled := by
    refine ⟨?_, fun j p' hj hp' => ?_⟩
    · rw [new, length_map, length_range, hl.requestSize, hsize]
    · exact absurd hj (hS j (List.getElem?_eq_some_iff.mp hp').1)
  words := by
    rw [new, Core.WordSet.length_new, hl.fragmentCount]
  marked j hj := by
    rw [new, hl.fragmentCount, Core.WordSet.test_new (by decide) hj, decide_eq_true_eq]
    refine ⟨.inl, fun h => h.elim id fun hSj => ?_⟩
    by_contra hlt
    exact hS j (by omega) hSj

theorem Holds.validate (hq : q.Holds e r ps S) {i : Nat} (hl : Lands e r ps i h p)
    (hsize : r.size = ps.flatten.length) (hlt : r.size < 2 ^ 32) : q.validateFragment h = true := by
  have hle := Core.pieceStart_add_le hl.piece
  have hinside := hl.inside
  have hmod : (pieceStart ps i + p.length) % 2 ^ 32 = pieceStart ps i + p.length :=
    mod_eq_of_lt (by omega)
  simp only [validateFragment, hl.order, hq.order, hl.requestSize, hq.requestSize,
    hl.fragmentCount, hq.fragmentCount, hl.fragmentOffset, hl.fragmentSize, hmod, ne_eq,
    not_true_eq_false, false_or]
  simp only [Bool.not_eq_true', decide_eq_false_iff_not, not_or]
  omega

theorem Holds.received (hq : q.Holds e r ps S) {i : Nat} (hi : i < ps.length) :
    q.testReceived i = true ↔ S i := by
  have hdiv : i / 32 ≤ ps.length / 32 := Nat.div_le_div_right hi.le
  rw [testReceived, hq.fragmentCount, if_neg (by omega), hq.marked i hdiv]
  exact ⟨fun h => h.resolve_left (by omega), .inr⟩

open Atcd.Core.WordSet

/-- The entry with one fragment more. -/
theorem Holds.mark (hq : q.Holds e r ps S) {i : Nat} (hp : ps[i]? = some p)
    (hS : ∀ j, S' j ↔ j = i ∨ S j) : ({ q.markReceived i with
      payload := overwrite q.payload (pieceStart ps i) p } : RequestEntry).Holds e r ps S' := by
  have hi : i < ps.length := (List.getElem?_eq_some_iff.mp hp).1
  have hdiv : i / 32 ≤ ps.length / 32 := Nat.div_le_div_right hi.le
  have hmark : q.markReceived i =
      { q with receivedFragments := Core.WordSet.mark q.receivedFragments i } := by
    rw [markReceived, hq.fragmentCount, if_neg (by omega)]
  rw [hmark]
  refine ⟨hq.order, hq.requestSize, hq.fragmentCount, ?_, ?_, ?_⟩
  · exact hq.filled.put hp fun k hk => (hS k).mp hk
  · rw [length_mark]
    exact hq.words
  · intro j hj
    have hword : i / 32 < q.receivedFragments.length := by
      rw [hq.words]
      omega
    have htest := test_mark (by decide) hword j
    rw [htest, Bool.or_eq_true, decide_eq_true_eq, hq.marked j hj, hS]
    exact or_left_comm

theorem Holds.complete (hq : q.Holds e r ps S) : q.complete = true ↔ ∀ i < ps.length, S i := by
  rw [RequestEntry.complete, full_iff (by decide), hq.words]
  constructor
  · intro h i hi
    have hdiv : i / 32 ≤ ps.length / 32 := Nat.div_le_div_right hi.le
    exact ((hq.marked i hdiv).mp (h i (by omega))).resolve_left (by omega)
  · intro h j hj
    refine (hq.marked j (by omega)).mpr ?_
    by_cases hlt : j < ps.length
    · exact .inr (h j hlt)
    · exact .inl (by omega)

theorem gathering_addFragment {s : Receiver} (hw : s.Window) (hd : s.decoded = [])
    (hq : q.Holds e r ps S) (hnot : ¬∀ j < ps.length, S j) (hone : ps.length ≠ 1) {i : Nat}
    (hl : Lands e r ps i h p) (hsize : r.size = ps.flatten.length) (hlt : r.size < 2 ^ 32)
    {a : Arrival} {data : List UInt8} (hdata : Receiver.dataBuf data a.stack h.fragmentSize = p)
    (hS : ∀ j, S' j ↔ j = i ∨ S j) :
    Gathering e r ps S' (s.addFragment s.getSourceEntry r.id q h a data) := by
  have hi : i < ps.length := (List.getElem?_eq_some_iff.mp hl.piece).1
  unfold addFragment
  rw [Holds.validate hq hl hsize hlt, hl.fragmentId, hdata, hl.fragmentOffset]
  rw [if_neg (by decide)]
  by_cases hSi : S i
  · have hsame : ∀ j, S' j ↔ S j := by
      intro j
      rw [hS]
      refine ⟨fun h => h.elim (fun hj => ?_) id, .inr⟩
      rw [hj]
      exact hSi
    have heq : S' = S := funext fun j => propext (hsame j)
    rw [if_pos ((Holds.received hq hi).mpr hSi), heq, hd]
    refine ⟨window_put hw _ _ _, ?_⟩
    rw [slot_put]
    exact ⟨hq, hnot, hone, rfl⟩
  · rw [if_neg (mt (Holds.received hq hi).mp hSi)]
    have hmark := Holds.mark hq hl.piece hS
    have hcomplete := Holds.complete hmark
    have hrest : q.markReceived i = { q.markReceived i with payload := q.payload } := by
      unfold markReceived
      split <;> rfl
    have hpayload : (q.markReceived i).payload = q.payload := by
      rw [hrest]
    dsimp only
    rw [hpayload]
    by_cases hall : ∀ j < ps.length, S' j
    · rw [hcomplete.mpr hall, if_neg (by decide), hd, hl.order]
      refine ⟨window_put hw _ _ _, ?_⟩
      rw [slot_put]
      refine ⟨hall, ?_⟩
      have hflat := hmark.filled.all hall
      dsimp only at hflat ⊢
      rw [hflat, hl.requestSize, hsize, take_length]
      rfl
    · have hno := mt hcomplete.mp hall
      rw [Bool.not_eq_true] at hno
      rw [hno, if_pos (by decide), hd]
      refine ⟨window_put hw _ _ _, ?_⟩
      rw [slot_put]
      exact ⟨hmark, hall, hone, rfl⟩

theorem gathering_same {s : Receiver} (hs : Gathering e r ps S s) (hS : ∀ j, S j → S' j)
    (hslot : s.slot r.id = .completed) :
    Gathering e r ps S' { s with requests := some s.getSourceEntry } := by
  refine ⟨hs.window, ?_⟩
  have h := hs.slot
  have hsame : ({ s with requests := some s.getSourceEntry } : Receiver).slot r.id =
      .completed := hslot
  rw [hslot] at h
  rw [hsame]
  exact ⟨fun j hj => hS j (h.1 j hj), h.2⟩

theorem gathering_processFragment {s : Receiver} (hs : Gathering e r ps S s)
    (hid : r.id < maxRequests) (hone : ps.length ≠ 1) {i : Nat} (hl : Lands e r ps i h p)
    (hsize : r.size = ps.flatten.length) (hlt : r.size < 2 ^ 32) {a : Arrival} {data : List UInt8}
    (hdata : Receiver.dataBuf data a.stack h.fragmentSize = p) (hS : ∀ j, S' j ↔ j = i ∨ S j) :
    Gathering e r ps S' (s.processFragment h a data) := by
  have hi : i < ps.length := (List.getElem?_eq_some_iff.mp hl.piece).1
  have hslot := hs.slot
  unfold processFragment
  rw [hl.requestId, getRequest_window hs.window hid]
  dsimp only
  cases hcase : s.slot r.id with
  | empty =>
    rw [hcase] at hslot
    rw [slot] at hcase
    rw [hcase]
    refine gathering_addFragment hs.window hslot.2 (holds_new hl hsize a.heap hslot.1) ?_ hone hl
      hsize hlt hdata hS
    exact fun hall => hslot.1 i hi (hall i hi)
  | completed =>
    have hsame := gathering_same hs (fun j hj => (hS j).mpr (.inr hj)) hcase
    rw [slot] at hcase
    rw [hcase]
    exact hsame
  | entry q =>
    rw [hcase] at hslot
    rw [slot] at hcase
    rw [hcase]
    obtain ⟨hq, hnot, -, hd⟩ := hslot
    exact gathering_addFragment hs.window hd hq hnot hone hl hsize hlt hdata hS

theorem gathering_whole {s : Receiver} (hs : Gathering e r ps S s) (hid : r.id < maxRequests)
    (hone : ps.length = 1) {i : Nat} (hl : Lands e r ps i h p) (hsize : r.size = ps.flatten.length)
    {a : Arrival} {data : List UInt8} (hdata : Receiver.dataBuf data a.stack h.fragmentSize = p)
    (hS : ∀ j, S' j ↔ j = i ∨ S j) : Gathering e r ps S' (s.whole h a data) := by
  have hslot := hs.slot
  obtain ⟨hi, hp⟩ := List.getElem?_eq_some_iff.mp hl.piece
  have hflat : ps.flatten = p := by
    obtain ⟨a, rfl⟩ := length_eq_one_iff.mp hone
    have hzero : i = 0 := by simpa using hi
    simp [← hp, hzero]
  unfold whole
  rw [hl.requestId, getRequest_window hs.window hid]
  dsimp only
  cases hcase : s.slot r.id with
  | empty =>
    rw [hcase] at hslot
    rw [slot] at hcase
    rw [hcase]
    rw [hslot.2, hl.order, hl.requestSize, hsize, hflat, ← hl.fragmentSize, hdata]
    refine ⟨window_put hs.window _ _ _, ?_⟩
    rw [slot_put, hflat]
    refine ⟨fun j hj => (hS j).mpr (.inl ?_), rfl⟩
    omega
  | completed =>
    have hsame := gathering_same hs (fun j hj => (hS j).mpr (.inr hj)) hcase
    rw [slot] at hcase
    rw [hcase]
    exact hsame
  | entry q =>
    rw [hcase] at hslot
    exact absurd hone hslot.2.2.1

end fragment
/-! ## All datagrams -/

/-- A request whose fragments are the layout of the pieces, with numbers that fit. -/
structure Request.Of (r : Request) (os : List (List UInt8)) : Prop where
  id : r.id < maxRequests
  size : r.size = os.flatten.length
  count : r.count = os.length
  sizeLt : r.size < 2 ^ 32
  countLt : r.count < 2 ^ 32

section layout
variable {r : Request} {os ps : List (List UInt8)}

theorem word_layoutAt (hr : r.Of os) {i : Nat} (hi : i < os.length) : (layoutAt r os i).Word := by
  have hsize := hr.sizeLt
  have hle := Core.pieceStart_add_le (getElem?_eq_getElem hi)
  have hget : (layoutAt r os i).size = os[i].length := by
    simp [layoutAt, getElem?_eq_getElem hi]
  have hof := hr.size
  refine ⟨lt_trans hr.id (by decide), hsize, ?_, ?_, mod_lt _ (by decide), hr.countLt⟩
  · rw [hget]
    omega
  · change pieceStart os i < 2 ^ 32
    omega

theorem layoutAt_inj (hr : r.Of os) {i j : Nat} (hi : i < os.length) (hj : j < os.length)
    (h : layoutAt r os i = layoutAt r os j) : i = j := by
  have hid := congrArg Fragment.id h
  have hlt := hr.countLt
  rw [hr.count] at hlt
  simp only [layoutAt] at hid
  rwa [mod_eq_of_lt (by omega), mod_eq_of_lt (by omega)] at hid

theorem pieceStart_congr (h : ps.map length = os.map length) (i : Nat) :
    pieceStart ps i = pieceStart os i := by
  rw [pieceStart, pieceStart, length_flatten, length_flatten, map_take, h, map_take]

theorem lands_layoutAt (hr : r.Of os) (h : ps.map length = os.map length) (c : Config)
    {i : Nat} (hi : i < os.length) {p : List UInt8} (hp : ps[i]? = some p)
    (hinside : pieceStart os i < r.size) :
    Lands c.order r ps i ((layoutAt r os i).header c) p := by
  have hlen : ps.length = os.length := by
    simpa using congrArg length h
  have hlt := hr.countLt
  rw [hr.count] at hlt
  have hpi : p.length = os[i].length := by
    have hmap := congrArg (fun l => l[i]?) h
    simp only [getElem?_map, hp, getElem?_eq_getElem hi, Option.map_some,
      Option.some.injEq] at hmap
    exact hmap
  refine ⟨hp, rfl, rfl, rfl, ?_, ?_, ?_, ?_, ?_⟩
  · simp [header, layoutAt, getElem?_eq_getElem hi, hpi]
  · rw [pieceStart_congr h]
    rfl
  · exact mod_eq_of_lt (by omega)
  · exact hr.count.trans hlen.symm
  · rw [pieceStart_congr h]
    exact hinside

/-- **Receiver.** Of the fragments that have arrived, those that are accepted are in
place as they landed. -/
theorem gathering_all (hr : r.Of os) (h : ps.map length = os.map length) (c : Config)
    (l : Limits) (transits : List Transit) (hmem : ∀ a ∈ transits, a.fragment ∈ layout r os)
    (hland : ∀ a ∈ transits, ∀ i < os.length, a.fragment = layoutAt r os i →
      ps[i]? = some (Receiver.dataBuf (a.fragment.arrives l) a.stack a.fragment.size)) :
    Gathering c.order r ps (fun i => i < os.length ∧ (layoutAt r os i).Accepted c l ∧
        ∃ a ∈ transits, a.fragment = layoutAt r os i)
      (Receiver.handleAll c l (transits.map fun a => a.arrival c)) := by
  have hsize : r.size = ps.flatten.length := by
    rw [hr.size, length_flatten, length_flatten, h]
  have hlen : ps.length = os.length := by
    simpa using congrArg length h
  induction transits using reverseRecOn with
  | nil =>
    have hstart := gathering_start c.order r ps
    have hnone : (fun i => i < os.length ∧ (layoutAt r os i).Accepted c l ∧
        ∃ a ∈ ([] : List Transit), a.fragment = layoutAt r os i) = fun _ => False := by
      funext i
      simp
    rw [hnone]
    exact hstart
  | append_singleton transits a ih =>
    have hold := ih (fun b hb => hmem b (by simp [hb])) fun b hb => hland b (by simp [hb])
    obtain ⟨i, hi, hfragment⟩ : ∃ i, i < os.length ∧ a.fragment = layoutAt r os i := by
      obtain ⟨i, hi, he⟩ := mem_map.mp (hmem a (by simp))
      exact ⟨i, mem_range.mp hi, he.symm⟩
    have hword : a.fragment.Word := by
      rw [hfragment]
      exact word_layoutAt hr hi
    rw [handleAll, map_append, foldl_append]
    change Gathering _ _ _ _ ((handleAll c l (transits.map fun a => a.arrival c)).handleInput
      c l (a.arrival c))
    rw [handleInput_transit hword]
    by_cases hacc : a.fragment.Accepted c l
    · rw [if_pos hacc]
      have hS (j : Nat) : (j < os.length ∧ (layoutAt r os j).Accepted c l ∧
            ∃ b ∈ transits ++ [a], b.fragment = layoutAt r os j) ↔
          j = i ∨ (j < os.length ∧ (layoutAt r os j).Accepted c l ∧
            ∃ b ∈ transits, b.fragment = layoutAt r os j) := by
        constructor
        · rintro ⟨hj, haccj, b, hb, hbj⟩
          rcases mem_append.mp hb with hb | hb
          · exact .inr ⟨hj, haccj, b, hb, hbj⟩
          · rw [mem_singleton.mp hb, hfragment] at hbj
            exact .inl (layoutAt_inj hr hi hj hbj).symm
        · rintro (rfl | ⟨hj, haccj, b, hb, hbj⟩)
          · exact ⟨hi, hfragment ▸ hacc, a, by simp, hfragment⟩
          · exact ⟨hj, haccj, b, by simp [hb], hbj⟩
      have hinside : pieceStart os i < r.size := by
        by_contra hno
        refine hacc.1 (.inr (.inl ?_))
        rw [hfragment]
        exact Nat.le_of_not_lt hno
      have hpiece := hland a (by simp) i hi hfragment
      have hl := lands_layoutAt hr h c hi hpiece hinside
      rw [← hfragment] at hl
      have hcount : a.fragment.count = ps.length := by
        rw [hfragment]
        exact hr.count.trans hlen.symm
      by_cases hone : ps.length = 1
      · rw [if_pos (hcount.trans hone)]
        exact gathering_whole hold hr.id hone hl hsize rfl hS
      · rw [if_neg fun h => hone (hcount.symm.trans h)]
        exact gathering_processFragment hold hr.id hone hl hsize hr.sizeLt rfl hS
    · rw [if_neg hacc]
      have hS : (fun j => j < os.length ∧ (layoutAt r os j).Accepted c l ∧
            ∃ b ∈ transits ++ [a], b.fragment = layoutAt r os j) =
          fun j => j < os.length ∧ (layoutAt r os j).Accepted c l ∧
            ∃ b ∈ transits, b.fragment = layoutAt r os j := by
        funext j
        refine propext ⟨?_, ?_⟩
        · rintro ⟨hj, haccj, b, hb, hbj⟩
          rcases mem_append.mp hb with hb | hb
          · exact ⟨hj, haccj, b, hb, hbj⟩
          · rw [mem_singleton.mp hb] at hbj
            rw [hbj] at hacc
            exact absurd haccj hacc
        · rintro ⟨hj, haccj, b, hb, hbj⟩
          exact ⟨hj, haccj, b, by simp [hb], hbj⟩
      rw [hS]
      exact hold

/-- A request is decoded once all of its fragments are accepted, and else not at all. -/
theorem Gathering.decoded {e : Endian} {S : Nat → Prop} {s : Receiver}
    (hs : Gathering e r ps S s) (hne : ps ≠ []) :
    ((∀ i < ps.length, S i) → s.decoded = [(e, ps.flatten)]) ∧
      ((¬∀ i < ps.length, S i) → s.decoded = []) := by
  have hslot := hs.slot
  have hpos : 0 < ps.length := length_pos_iff.mpr hne
  split at hslot
  · exact ⟨fun hall => absurd (hall 0 hpos) (hslot.1 0 hpos), fun _ => hslot.2⟩
  · exact ⟨fun hall => absurd hall hslot.2.1, fun _ => hslot.2.2.2⟩
  · exact ⟨fun _ => hslot.2, fun hno => absurd hslot.1 hno⟩

end layout
/-! ## Messages -/

/-- The fragments are numbered and counted, and whatever the order and the number in which
they arrive, `decode` is called once, on the bytes of the message. -/
structure Survives (c : Config) (l : Limits) (requestId : Nat) (blocks : List (List UInt8)) :
    Prop where
  numbered : ∃ count, (∀ f ∈ sendMessage c requestId blocks, f.count = count) ∧
    ((sendMessage c requestId blocks).map Fragment.id).Perm (List.range count)
  decoded : ∀ transits : List Transit,
    (∀ a ∈ transits, a.fragment ∈ sendMessage c requestId blocks) →
    (∀ f ∈ sendMessage c requestId blocks, ∃ a ∈ transits, a.fragment = f) →
    (Receiver.handleAll c l (transits.map fun a => a.arrival c)).decoded =
      [(c.order, blocks.flatten)]

section survives
variable {r : Request} {os : List (List UInt8)} {c : Config} {l : Limits}

theorem data_layoutAt {i : Nat} (hi : i < os.length) :
    (layoutAt r os i).data = os[i] ∧ (layoutAt r os i).size = os[i].length := by
  simp [layoutAt, getElem?_eq_getElem hi]

theorem lands_whole {i : Nat} (hi : i < os.length) (h : os[i].length ≤ l.maxDgramSize)
    (stack : Nat → UInt8) : (layoutAt r os i).arrives l = os[i] ∧
      Receiver.dataBuf ((layoutAt r os i).arrives l) stack (layoutAt r os i).size = os[i] := by
  obtain ⟨hdata, hsize⟩ := data_layoutAt (r := r) hi
  have harrives : (layoutAt r os i).arrives l = os[i] := by
    rw [arrives, hdata, take_of_length_le h]
  refine ⟨harrives, ?_⟩
  rw [harrives, hsize]
  refine ext_getElem (by simp [dataBuf]) fun k hk hk' => ?_
  simp [dataBuf, hk']

/-- Only an empty fragment behind all bytes, and one that does not fit, are not accepted. -/
theorem accepted_layoutAt (hr : r.Of os) (hcrc : l.checkCrc = true → c.checksum = true)
    {i : Nat} (hi : i < os.length) (hinside : pieceStart os i < r.size)
    (h : os[i].length ≤ l.maxDgramSize) : (layoutAt r os i).Accepted c l := by
  obtain ⟨hdata, hsize⟩ := data_layoutAt (r := r) hi
  have harrives := (lands_whole (r := r) hi h fun _ => 0).1
  have hle := Core.pieceStart_add_le (getElem?_eq_getElem hi)
  have hof := hr.size
  have hlt := hr.countLt
  rw [hr.count] at hlt
  have hid : (layoutAt r os i).id = i := mod_eq_of_lt (by omega)
  refine ⟨?_, fun hcheck => ?_⟩
  · rw [harrives]
    simp only [McastHeader.Invalid, header, hsize, hid]
    have hcount : (layoutAt r os i).count = os.length := hr.count
    have hoffset : (layoutAt r os i).offset = pieceStart os i := rfl
    have htotal : (layoutAt r os i).requestSize = r.size := rfl
    rw [hcount, hoffset, htotal]
    rintro (h | h | h | ⟨hone, h⟩)
    · omega
    · omega
    · omega
    · obtain ⟨p, rfl⟩ := length_eq_one_iff.mp hone
      have hzero : i = 0 := by simpa using hi
      subst hzero
      simp only [getElem_cons_zero, flatten_singleton] at h hof
      omega
  · simp only [header, hcrc hcheck, if_true, harrives, hdata]

end survives

theorem map_id_layout (r : Request) {os : List (List UInt8)} (h : os.length < 2 ^ 32) :
    (layout r os).map Fragment.id = range os.length := by
  rw [layout, map_map]
  conv_rhs => rw [← map_id (range os.length)]
  refine map_congr_left fun i hi => ?_
  have hlt := mem_range.mp hi
  exact mod_eq_of_lt (by omega)

theorem pieceStart_lt {os : List (List UInt8)} (hlast : os.getLast? ≠ some []) {i : Nat}
    (hi : i < os.length) : pieceStart os i < os.flatten.length := by
  have hne : os ≠ [] := ne_nil_of_length_pos (by omega)
  have hget : os[os.length - 1]? = some (os.getLast hne) := by
    rw [← getLast?_eq_getElem?, getLast?_eq_getLast_of_ne_nil hne]
  have hpos : 0 < (os.getLast hne).length := by
    refine length_pos_iff.mpr fun hnil => hlast ?_
    rw [getLast?_eq_getLast_of_ne_nil hne, hnil]
  have hmono : pieceStart os i ≤ pieceStart os (os.length - 1) :=
    Core.pieceStart_mono os (by omega)
  have hle := Core.pieceStart_add_le hget
  omega

def inOrder (fragments : List Fragment) (stack : Nat → UInt8) : List Transit :=
  fragments.map fun f => ⟨f, stack, fun _ => 0⟩

section decoded
variable {r : Request} {os : List (List UInt8)} {c : Config} {l : Limits}

/-- The pieces as they land, with the same memory on the stack. -/
def landed (l : Limits) (os : List (List UInt8)) (stack : Nat → UInt8) : List (List UInt8) :=
  os.map fun p => Receiver.dataBuf (p.take l.maxDgramSize) stack p.length

theorem length_landed (l : Limits) (os : List (List UInt8)) (stack : Nat → UInt8) :
    (landed l os stack).map length = os.map length := by
  simp [landed, dataBuf]

theorem decoded_inOrder (hr : r.Of os) (hne : os ≠ []) (stack : Nat → UInt8) :
    ((∀ i < os.length, (layoutAt r os i).Accepted c l) →
      (Receiver.handleAll c l ((inOrder (layout r os) stack).map fun a => a.arrival c)).decoded =
        [(c.order, (landed l os stack).flatten)]) ∧
    ((¬∀ i < os.length, (layoutAt r os i).Accepted c l) →
      (Receiver.handleAll c l ((inOrder (layout r os) stack).map fun a => a.arrival c)).decoded =
        []) := by
  have hlen : (landed l os stack).length = os.length := by simp [landed]
  have hmem : ∀ a ∈ inOrder (layout r os) stack, a.fragment ∈ layout r os := by
    intro a ha
    obtain ⟨f, hf, rfl⟩ := mem_map.mp ha
    exact hf
  have hland : ∀ a ∈ inOrder (layout r os) stack, ∀ i < os.length,
      a.fragment = layoutAt r os i → (landed l os stack)[i]? =
        some (dataBuf (a.fragment.arrives l) a.stack a.fragment.size) := by
    intro a ha i hi hfragment
    obtain ⟨f, -, rfl⟩ := mem_map.mp ha
    obtain ⟨hdata, hsize⟩ := data_layoutAt (r := r) hi
    rw [hfragment, arrives, hdata, hsize]
    simp [landed, hi]
  have hgathering := gathering_all hr (length_landed l os stack) c l _ hmem hland
  have hlandedne : landed l os stack ≠ [] := by
    intro h
    rw [h] at hlen
    exact hne (length_eq_zero_iff.mp hlen.symm)
  obtain ⟨hall, hnot⟩ := hgathering.decoded hlandedne
  rw [hlen] at hall hnot
  constructor
  · intro hacc
    refine hall fun i hi => ⟨hi, hacc i hi, ?_⟩
    refine ⟨⟨layoutAt r os i, stack, fun _ => 0⟩, ?_, rfl⟩
    exact mem_map_of_mem (mem_map.mpr ⟨i, mem_range.mpr hi, rfl⟩)
  · intro hacc
    exact hnot fun h => hacc fun i hi => (h i hi).2.1

theorem covers_inOrder (fragments : List Fragment) (stack : Nat → UInt8) :
    (∀ a ∈ inOrder fragments stack, a.fragment ∈ fragments) ∧
      ∀ f ∈ fragments, ∃ a ∈ inOrder fragments stack, a.fragment = f := by
  constructor
  · intro a ha
    obtain ⟨f, hf, rfl⟩ := mem_map.mp ha
    exact hf
  · exact fun f hf => ⟨⟨f, stack, fun _ => 0⟩, mem_map_of_mem hf, rfl⟩

/-- Whole fragments inside of the message are put together again. -/
theorem decoded_of_fits (hr : r.Of os) (hcrc : l.checkCrc = true → c.checksum = true)
    (hlast : os.getLast? ≠ some []) (hne : os ≠ [])
    (hfits : ∀ p ∈ os, p.length ≤ l.maxDgramSize) {transits : List Transit}
    (hmem : ∀ a ∈ transits, a.fragment ∈ layout r os)
    (hcover : ∀ f ∈ layout r os, ∃ a ∈ transits, a.fragment = f) :
    (Receiver.handleAll c l (transits.map fun a => a.arrival c)).decoded =
      [(c.order, os.flatten)] := by
  have hsame : os.map length = os.map length := rfl
  have hgathering := gathering_all hr hsame c l transits hmem fun a _ i hi hfragment => by
    rw [hfragment, (lands_whole hi (hfits _ (getElem_mem hi)) a.stack).2]
    exact getElem?_eq_getElem hi
  refine (hgathering.decoded hne).1 fun i hi => ⟨hi, ?_, ?_⟩
  · refine accepted_layoutAt hr hcrc hi ?_ (hfits _ (getElem_mem hi))
    rw [hr.size]
    exact pieceStart_lt hlast hi
  · exact hcover _ (mem_map.mpr ⟨i, mem_range.mpr hi, rfl⟩)

/-- What `decode` gets in order, if it is the message, tells that the pieces fit. -/
theorem fits_of_decoded (hr : r.Of os) (hpos : 0 < os.flatten.length)
    (hdecoded : ∀ stack, (Receiver.handleAll c l
      ((inOrder (layout r os) stack).map fun a => a.arrival c)).decoded = [(c.order, os.flatten)]) :
    os.getLast? ≠ some [] ∧ ∀ p ∈ os, p.length ≤ l.maxDgramSize := by
  have hne : os ≠ [] := by
    rintro rfl
    exact absurd hpos (by simp)
  have haccepted : ∀ i < os.length, (layoutAt r os i).Accepted c l := by
    by_contra hno
    have hnone := (decoded_inOrder (c := c) (l := l) hr hne fun _ => 0).2 hno
    rw [hdecoded] at hnone
    cases hnone
  constructor
  · intro hlast
    rw [getLast?_eq_getElem?] at hlast
    obtain ⟨hi, hnil⟩ := List.getElem?_eq_some_iff.mp hlast
    refine (haccepted _ hi).1 (.inr (.inl ?_))
    change pieceStart os (os.length - 1) ≥ r.size
    have hend := Core.pieceStart_succ hlast
    have hwhole : pieceStart os (os.length - 1 + 1) = os.flatten.length := by
      rw [Nat.sub_add_cancel (by omega), Core.pieceStart_length]
    rw [hwhole, length_nil, Nat.add_zero] at hend
    rw [hr.size]
    omega
  · intro p hp
    by_contra hlong
    obtain ⟨i, hi, rfl⟩ := getElem_of_mem hp
    have hD : l.maxDgramSize < os[i].length := by omega
    -- The byte behind the buffer is another one than the one that was sent.
    have heq := ((decoded_inOrder (c := c) (l := l) hr hne fun _ => os[i][l.maxDgramSize] + 1).1
      haccepted).symm.trans (hdecoded _)
    simp only [cons.injEq, Prod.mk.injEq, true_and, and_true] at heq
    have hpiece : (landed l os fun _ => os[i][l.maxDgramSize] + 1)[i]? =
        some (dataBuf (os[i].take l.maxDgramSize)
          (fun _ => os[i][l.maxDgramSize] + 1) os[i].length) := by
      simp [landed, hi]
    have hat := Core.flatten_at hpiece (j := l.maxDgramSize) (by simpa [dataBuf] using hD)
    have hsent := Core.flatten_at (getElem?_eq_getElem hi) hD
    rw [heq, pieceStart_congr (length_landed l os _), hsent] at hat
    simp [dataBuf, hD] at hat

end decoded
/-- **Messages.** A message is decoded as it was sent if and only if its fragments can be
counted, no empty block stands behind the point where all bytes are in complete
fragments, and no fragment is longer than the buffer of the receiver. -/
theorem survives_iff (c : Config) (l : Limits) (hmax : 0 < c.maxFragmentPayload)
    (hlimit : 2 ≤ c.writevMax) (hcrc : l.checkCrc = true → c.checksum = true) (requestId : Nat)
    (hid : requestId < maxRequests) (blocks : List (List UInt8))
    (hpos : 0 < blocks.flatten.length) (hlt : blocks.flatten.length < 2 ^ 32) :
    Survives c l requestId blocks ↔
      Cut.fragments c.maxFragmentPayload c.writevMax (blocks.map List.length) < 2 ^ 32 ∧
        ¬Cut.Trailing c.maxFragmentPayload c.writevMax (blocks.map List.length) ∧
        Cut.Fits c.maxFragmentPayload c.writevMax l.maxDgramSize (blocks.map List.length) := by
  obtain ⟨os, hsent, hbytes, hlength, htrailing, hfits⟩ :=
    sendMessage_layout c hmax hlimit requestId blocks
  rw [← hlength, ← htrailing, ← hfits]
  have hne : os ≠ [] := by
    rintro rfl
    rw [← hbytes] at hpos
    exact absurd hpos (by simp)
  have hr (hcount : os.length < 2 ^ 32) : Request.Of
      ⟨requestId, blocks.flatten.length % 2 ^ 32, os.length % 2 ^ 32⟩ os := by
    refine ⟨hid, ?_, ?_, mod_lt _ (by decide), mod_lt _ (by decide)⟩
    · rw [hbytes]
      exact mod_eq_of_lt hlt
    · exact mod_eq_of_lt hcount
  constructor
  · rintro ⟨⟨count, hcount, hperm⟩, hdecoded⟩
    have hfew : os.length < 2 ^ 32 := by
      have hlen := hperm.length_eq
      rw [length_map, length_range, hsent, layout, length_map,
        length_range] at hlen
      have hfirst := hcount (layoutAt _ os 0) (by
        rw [hsent]
        exact mem_map.mpr ⟨0, mem_range.mpr (length_pos_iff.mpr hne), rfl⟩)
      change os.length % 2 ^ 32 = count at hfirst
      omega
    refine ⟨hfew, ?_⟩
    refine fits_of_decoded (c := c) (hr hfew) (by rw [hbytes]; exact hpos) fun stack => ?_
    rw [hbytes, ← hsent]
    obtain ⟨hmem, hcover⟩ := covers_inOrder (sendMessage c requestId blocks) stack
    exact hdecoded _ hmem hcover
  · rintro ⟨hfew, hlast, hfit⟩
    refine ⟨⟨os.length, fun f hf => ?_, ?_⟩, fun transits hmem hcover => ?_⟩
    · rw [hsent] at hf
      obtain ⟨i, -, rfl⟩ := mem_map.mp hf
      exact (hr hfew).count
    · rw [hsent, map_id_layout _ hfew]
    · rw [hsent] at hmem hcover
      rw [← hbytes]
      exact decoded_of_fits (hr hfew) hcrc hlast hne hfit hmem hcover

/-- A sender with room for two bytes and three entries, without a checksum. -/
def smallSender : Config := ⟨.little, 2, 4, false, fun _ => 0⟩

theorem survives_iff_small : Survives smallSender ⟨8192, false⟩ 0 [[1, 2], [], [3]] := by
  refine (survives_iff smallSender ⟨8192, false⟩ (by decide) (by decide) nofun 0 (by decide)
    [[1, 2], [], [3]] (by decide) (by decide)).mpr ⟨by decide, ?_, ?_⟩
  · rintro ⟨front, rest, hsplit, hne, hzero, -⟩
    have hlast : 1 ∈ rest := by
      have hget := congrArg getLast? hsplit
      rw [getLast?_append_of_ne_nil _ hne] at hget
      exact mem_of_getLast? hget.symm
    exact absurd (hzero 1 hlast) (by decide)
  · exact fun front a rest _ => (min_le_right _ _).trans (by decide)

/-- The block of two bytes fills a fragment, and the empty block behind it becomes one of
its own, which begins at the end of the message and is refused. -/
theorem empty_block_refused :
    ¬∀ (c : Config) (l : Limits) (requestId : Nat) (blocks : List (List UInt8)),
      0 < c.maxFragmentPayload → 2 ≤ c.writevMax → (l.checkCrc = true → c.checksum = true) →
      requestId < maxRequests → 0 < blocks.flatten.length → blocks.flatten.length < 2 ^ 32 →
      Survives c l requestId blocks := by
  intro h
  have hs := (h smallSender ⟨8192, false⟩ 0 [[1, 2], []] (by decide) (by decide) nofun (by decide)
    (by decide) (by decide)).decoded (inOrder (sendMessage smallSender 0 [[1, 2], []]) fun _ => 0)
  obtain ⟨hmem, hcover⟩ := covers_inOrder (sendMessage smallSender 0 [[1, 2], []]) fun _ => 0
  have hdecoded := hs hmem hcover
  revert hdecoded
  decide +kernel

end Atcd.Event
