import Atcd.Event.RequestWindow
/-!
# What a datagram of any bytes can do to the receiver

The header of a datagram is checked in two places, and neither compares the size of the
fragment with the bytes that have come. The receiver is followed here with the accesses of each
call and the fragments that have been copied into each request.

Results:
- `handleInput_accepts`: what is done with a datagram whose header is accepted;
- `handleInput_inv`: a call keeps the notes about the requests, whatever the datagram holds;
- `hostile_inside`: the accesses are inside, and a request is decoded when it is filled, as long
  as the fragments copied are no longer than what has come and follow a division.
-/
namespace Atcd.Event
open Atcd.Core List Function Option RequestEntry Receiver

/-- An access: a copy out of the bytes received, one into the payload, or a word of the bits. -/
inductive Access
  | received (size bytesReceived : Nat)
  | payload (offset size requestSize : Nat)
  | bits (index size : Nat)

def Access.Inside : Access → Prop
  | .received size bytesReceived => size ≤ bytesReceived
  | .payload offset size requestSize => offset + size ≤ requestSize
  | .bits index size => index < size

def Filled (requestSize : Nat) (ranges : List (Nat × Nat)) : Prop :=
  ∀ b < requestSize, ∃ range ∈ ranges, range.1 ≤ b ∧ b < range.1 + range.2

/-- The fragments are those of a division of the payload, by their identifiers. -/
def Divided (requestSize fragmentCount : Nat) (fragments : List McastHeader) : Prop :=
  ∃ division : Nat → Nat × Nat,
    (∀ b < requestSize, ∃ id < fragmentCount,
      (division id).1 ≤ b ∧ b < (division id).1 + (division id).2) ∧
    ∀ h ∈ fragments, division h.fragmentId = (h.fragmentOffset, h.fragmentSize)

/-- The request of a fragment: its place, what has been copied into it, and the accesses that
have been made to build it. -/
structure Found where
  index : Nat
  entry : RequestEntry
  fragments : List McastHeader
  accesses : List Access

/-- The word of a bit that is tested or set.
mirrors TAO/orbsvcs/orbsvcs/Event/ECG_CDR_Message_Receiver.cpp:83-107 -/
def RequestEntry.bitAccess (r : RequestEntry) (fragmentId : Nat) : List Access :=
  if fragmentId > r.fragmentCount then []
  else [.bits (fragmentId / 32) r.receivedFragments.length]

/-- The fragment is copied into its request. -/
def RequestEntry.Copies (r : RequestEntry) (h : McastHeader) : Prop :=
  r.validateFragment h = true ∧ r.testReceived h.fragmentId = false

instance (r : RequestEntry) (h : McastHeader) : Decidable (r.Copies h) :=
  inferInstanceAs (Decidable (_ ∧ _))

/-- The receiver of a source, the fragments copied into the request at each place, the
accesses, and for each decode the size and the ranges that have been written. -/
structure Watched where
  receiver : Receiver
  fragments : Nat → List McastHeader
  accesses : List Access
  decodes : List (Nat × List (Nat × Nat))

namespace Watched

/-- The request of a fragment, which is built when the place is empty. -/
def find (t : Watched) (h : McastHeader) (a : Arrival) : Option Found :=
  (t.receiver.getSourceEntry.getRequest h.requestId).bind fun (q, index) =>
    match q.fragmentedRequests index with
    | .completed => none
    | .empty =>
      let r := RequestEntry.new h a.heap
      some ⟨index, r, [], [.bits (h.fragmentCount / 32) r.receivedFragments.length]⟩
    | .entry r => some ⟨index, r, t.fragments index, []⟩

/-- The accesses of `process_fragment` once it has the request.
mirrors ECG_CDR_Message_Receiver.cpp:435-476 -/
def addFragment (t : Watched) (f : Found) (h : McastHeader) (data : List UInt8) : Watched :=
  let test := f.entry.bitAccess h.fragmentId
  if !f.entry.validateFragment h then
    { t with
      fragments := Function.update t.fragments f.index f.fragments
      accesses := t.accesses ++ f.accesses }
  else if f.entry.testReceived h.fragmentId then
    { t with
      fragments := Function.update t.fragments f.index f.fragments
      accesses := t.accesses ++ f.accesses ++ test }
  else
    let fragments := f.fragments ++ [h]
    { t with
      fragments := Function.update t.fragments f.index fragments
      accesses := t.accesses ++ f.accesses ++ test ++ test ++
        [.payload h.fragmentOffset h.fragmentSize f.entry.payload.length,
          .received h.fragmentSize data.length]
      decodes :=
        if (f.entry.markReceived h.fragmentId).complete then
          t.decodes ++
            [(h.requestSize, fragments.map fun h => (h.fragmentOffset, h.fragmentSize))]
        else t.decodes }

def processFragment (t : Watched) (h : McastHeader) (a : Arrival) (data : List UInt8) :
    Watched :=
  match t.find h a with
  | none => t
  | some f => t.addFragment f h data

/-- A message in one fragment is decoded where it has been received. -/
def whole (t : Watched) (h : McastHeader) (data : List UInt8) : Watched :=
  match t.receiver.getSourceEntry.getRequest h.requestId with
  | none => t
  | some (q, index) =>
    match q.fragmentedRequests index with
    | .empty => { t with decodes := t.decodes ++ [(h.requestSize, [(0, data.length)])] }
    | _ => t

end Watched

/-- The header and the data of a datagram that is processed. -/
def accepts (c : Config) (l : Limits) (a : Arrival) : Option (McastHeader × List UInt8) :=
  let header := a.datagram.take headerSize
  let data := (a.datagram.drop headerSize).take l.maxDgramSize
  let n := header.length + data.length
  if n < headerSize then none
  else
    (McastHeader.read header n).bind fun h =>
      if l.checkCrc = true ∧ h.crc ≠ (c.crc32 (header.take 28 ++ data)).toNat then none
      else some (h, data)

theorem handleInput_accepts (s : Receiver) (c : Config) (l : Limits) (a : Arrival) :
    s.handleInput c l a = match accepts c l a with
      | none => s
      | some (h, data) =>
        if h.fragmentCount = 1 then s.whole h a data else s.processFragment h a data := by
  unfold handleInput accepts
  dsimp only
  split_ifs with hn
  · rfl
  · cases McastHeader.read _ _ with
    | none => rfl
    | some h =>
      dsimp only [bind_some]
      split_ifs with hcrc hone
      · rfl
      · exact (if_pos hone).symm
      · exact (if_neg hone).symm

variable {c : Config} {l : Limits} {a : Arrival} {h : McastHeader} {data : List UInt8}

/-- An accepted header names one of its fragments; that of one fragment is as long as what
has come. -/
theorem accepts_header (hread : accepts c l a = some (h, data)) :
    h.fragmentId < h.fragmentCount ∧ (h.fragmentCount = 1 → h.requestSize = data.length) := by
  unfold accepts at hread
  dsimp only at hread
  split_ifs at hread with hn
  obtain ⟨h', hh', hdata⟩ := bind_eq_some_iff.mp hread
  split_ifs at hdata
  obtain ⟨rfl, rfl⟩ := Prod.mk.inj (some.inj hdata)
  have hvalid : ¬h'.Invalid ((a.datagram.take headerSize).length +
      ((a.datagram.drop headerSize).take l.maxDgramSize).length) := by
    obtain ⟨e, he, hh'⟩ := bind_eq_some_iff.mp hh'
    dsimp only at hh'
    split_ifs at hh' with hmagic hinvalid
    obtain rfl := some.inj hh'
    exact hinvalid
  have hlen : (a.datagram.take headerSize).length ≤ headerSize := by
    rw [length_take]
    exact min_le_left _ _
  have hshort : (a.datagram.take headerSize).length < headerSize →
      (a.datagram.drop headerSize).length = 0 := by
    rw [length_take, length_drop]
    omega
  have htake : ((a.datagram.drop headerSize).take l.maxDgramSize).length ≤
      (a.datagram.drop headerSize).length := length_take_le' _ _
  unfold McastHeader.Invalid at hvalid
  omega

/-! ## What is known of a request -/

/-- A bit that is set is that of a fragment that has been copied. -/
structure RequestEntry.Marked (r : RequestEntry) (fragments : List McastHeader) : Prop where
  words : r.receivedFragments.length = r.fragmentCount / 32 + 1
  filled : r.payload.length = r.requestSize
  marked : ∀ id < r.fragmentCount, WordSet.test r.receivedFragments id = true →
    ∃ h ∈ fragments, h.fragmentId = id

namespace RequestEntry

variable {r : RequestEntry} {fragments : List McastHeader}

theorem marked_new (h : McastHeader) (heap : Nat → UInt8) :
    (RequestEntry.new h heap).Marked [] := by
  refine ⟨WordSet.length_new _ _, by simp [new], fun id hid htest => ?_⟩
  have hdiv : id / 32 ≤ h.fragmentCount / 32 := Nat.div_le_div_right hid.le
  rw [new, WordSet.test_new (by decide) hdiv, decide_eq_true_eq] at htest
  exact absurd htest (not_le.mpr hid)

theorem Marked.bitAccess (hr : r.Marked fragments) (id : Nat) :
    ∀ x ∈ r.bitAccess id, x.Inside := by
  intro x hx
  unfold RequestEntry.bitAccess at hx
  split_ifs at hx with hout
  · cases hx
  · obtain rfl := mem_singleton.mp hx
    have hdiv : id / 32 ≤ r.fragmentCount / 32 := Nat.div_le_div_right (not_lt.mp hout)
    rw [Access.Inside, hr.words]
    omega

theorem validateFragment_fields (hvalid : r.validateFragment h = true)
    (hend : h.fragmentOffset + h.fragmentSize < 2 ^ 32) :
    h.requestSize = r.requestSize ∧ h.fragmentCount = r.fragmentCount ∧
      h.fragmentOffset + h.fragmentSize ≤ r.requestSize := by
  rw [validateFragment, Nat.mod_eq_of_lt hend] at hvalid
  simp only [Bool.not_eq_true', decide_eq_false_iff_not, not_or] at hvalid
  omega

theorem markReceived_fields (r : RequestEntry) (id : Nat) :
    (r.markReceived id).payload = r.payload ∧ (r.markReceived id).requestSize = r.requestSize ∧
      (r.markReceived id).fragmentCount = r.fragmentCount := by
  unfold markReceived
  split_ifs <;> exact ⟨rfl, rfl, rfl⟩

/-- The entry with one fragment more. -/
theorem Marked.mark (hr : r.Marked fragments) (hid : h.fragmentId < r.fragmentCount)
    {payload : List UInt8} (hlen : payload.length = r.requestSize) :
    ({ r.markReceived h.fragmentId with payload := payload } : RequestEntry).Marked
      (fragments ++ [h]) := by
  have hword : h.fragmentId / 32 < r.receivedFragments.length := by
    rw [hr.words]
    have hdiv : h.fragmentId / 32 ≤ r.fragmentCount / 32 := Nat.div_le_div_right hid.le
    omega
  rw [markReceived, if_neg (by omega)]
  refine ⟨?_, hlen, fun id hlt htest => ?_⟩
  · rw [WordSet.length_mark, hr.words]
  · rw [WordSet.test_mark (by decide) hword, Bool.or_eq_true, decide_eq_true_eq] at htest
    rcases htest with rfl | htest
    · exact ⟨h, by simp, rfl⟩
    · obtain ⟨g, hg, hgid⟩ := hr.marked id hlt htest
      exact ⟨g, mem_append_left _ hg, hgid⟩

theorem Marked.filled_of_complete (hr : r.Marked fragments) (hcomplete : r.complete = true)
    (hdivided : Divided r.requestSize r.fragmentCount fragments) :
    Filled r.requestSize (fragments.map fun h => (h.fragmentOffset, h.fragmentSize)) := by
  intro b hb
  obtain ⟨division, hcover, hfollow⟩ := hdivided
  obtain ⟨id, hid, hrange⟩ := hcover b hb
  have hdiv : id / 32 ≤ r.fragmentCount / 32 := Nat.div_le_div_right hid.le
  have hset : WordSet.test r.receivedFragments id = true := by
    refine (WordSet.full_iff (by decide) _).mp hcomplete id ?_
    rw [hr.words]
    omega
  obtain ⟨h, hmem, rfl⟩ := hr.marked id hid hset
  rw [hfollow h hmem] at hrange
  exact ⟨_, mem_map_of_mem hmem, hrange⟩

end RequestEntry

/-! ## The calls -/

theorem Requests.getRequest_slots {q q' : Requests} {requestId index : Nat}
    (hget : q.getRequest requestId = some (q', index)) (place : Nat) :
    q'.fragmentedRequests place = q.fragmentedRequests place ∨
      q'.fragmentedRequests place = .empty := by
  unfold getRequest at hget
  split_ifs at hget with hbelow habove
  · obtain ⟨rfl, rfl⟩ := Prod.mk.inj (some.inj hget)
    unfold shift purge
    dsimp only
    split_ifs <;> dsimp only <;> rw [foldl_clear] <;> split_ifs <;> simp
  · obtain ⟨rfl, rfl⟩ := Prod.mk.inj (some.inj hget)
    exact .inl rfl

/-- The bits of the requests in their places. -/
def Requests.Tracked (q : Requests) (fragments : Nat → List McastHeader) : Prop :=
  ∀ index r, q.fragmentedRequests index = .entry r → r.Marked (fragments index)

theorem Requests.Tracked.getRequest {q q' : Requests} {fragments : Nat → List McastHeader}
    (hq : q.Tracked fragments) {requestId index : Nat}
    (hget : q.getRequest requestId = some (q', index)) : q'.Tracked fragments := by
  intro place r hr
  rcases getRequest_slots hget place with hsame | hempty
  · exact hq place r (hsame ▸ hr)
  · rw [hempty] at hr
    cases hr

theorem Requests.Tracked.put {q : Requests} {fragments : Nat → List McastHeader}
    (hq : q.Tracked fragments) {index : Nat} {slot : Slot} {fs : List McastHeader}
    (hslot : ∀ r, slot = .entry r → r.Marked fs) :
    (q.put index slot).Tracked (update fragments index fs) := by
  intro place r hr
  rw [Requests.put] at hr
  dsimp only at hr
  by_cases hplace : place = index
  · subst hplace
    rw [update_self] at hr ⊢
    exact hslot r hr
  · rw [update_of_ne hplace] at hr ⊢
    exact hq place r hr

namespace Watched

/-- A call of `handle_input`. -/
def handleInput (t : Watched) (c : Config) (l : Limits) (a : Arrival) : Watched :=
  { (match accepts c l a with
    | none => t
    | some (h, data) =>
      if h.fragmentCount = 1 then t.whole h data else t.processFragment h a data) with
    receiver := t.receiver.handleInput c l a }

/-- A fragment that is copied is no longer than the bytes that have come with it, its end does
not wrap, and with those before it it follows a division of the payload. -/
def Good (t : Watched) (c : Config) (l : Limits) (a : Arrival) : Prop :=
  ∀ h data, accepts c l a = some (h, data) → h.fragmentCount ≠ 1 →
    ∀ f, t.find h a = some f → f.entry.Copies h →
      h.fragmentSize ≤ data.length ∧ h.fragmentOffset + h.fragmentSize < 2 ^ 32 ∧
        Divided h.requestSize h.fragmentCount (f.fragments ++ [h])

/-- The accesses are inside, and what has been decoded was filled. -/
structure Safe (t : Watched) : Prop where
  inside : ∀ x ∈ t.accesses, x.Inside
  filled : ∀ d ∈ t.decodes, Filled d.1 d.2

/-- With the bits of the requests. -/
structure Inv (t : Watched) : Prop extends Safe t where
  tracked : t.receiver.getSourceEntry.Tracked t.fragments

variable {t : Watched}

theorem addFragment_inv (ht : t.Safe) {q : Requests} (hq : q.Tracked t.fragments) {f : Found}
    (hf : f.entry.Marked f.fragments) (hnew : ∀ x ∈ f.accesses, x.Inside)
    (hid : h.fragmentId < h.fragmentCount)
    (hgood : f.entry.Copies h → h.fragmentSize ≤ data.length ∧
      h.fragmentOffset + h.fragmentSize < 2 ^ 32 ∧
      Divided h.requestSize h.fragmentCount (f.fragments ++ [h])) :
    Inv { t.addFragment f h data with
      receiver := t.receiver.addFragment q f.index f.entry h a data } := by
  have hkept : (q.put f.index (.entry f.entry)).Tracked
      (update t.fragments f.index f.fragments) := hq.put fun r hr => Slot.entry.inj hr ▸ hf
  have htest := hf.bitAccess h.fragmentId
  unfold addFragment Receiver.addFragment
  cases hvalid : f.entry.validateFragment h with
  | false =>
    refine ⟨⟨fun x hx => ?_, ht.filled⟩, hkept⟩
    exact (mem_append.mp hx).elim (ht.inside x) (hnew x)
  | true =>
    cases hreceived : f.entry.testReceived h.fragmentId with
    | true =>
      refine ⟨⟨fun x hx => ?_, ht.filled⟩, hkept⟩
      simp only [Bool.not_true, Bool.false_eq_true, if_false, if_true, mem_append] at hx
      rcases hx with (hx | hx) | hx
      · exact ht.inside x hx
      · exact hnew x hx
      · exact htest x hx
    | false =>
      obtain ⟨hsize, hend, hdivided⟩ := hgood ⟨hvalid, hreceived⟩
      obtain ⟨hrequest, hcount, hinside⟩ := validateFragment_fields hvalid hend
      obtain ⟨hpayload, hrequest', hcount'⟩ := f.entry.markReceived_fields h.fragmentId
      rw [← hrequest] at hrequest'
      rw [← hcount] at hcount'
      have hlen : (overwrite (f.entry.markReceived h.fragmentId).payload h.fragmentOffset
          (dataBuf data a.stack h.fragmentSize)).length = f.entry.requestSize := by
        rw [hpayload, length_overwrite, hf.filled]
        simpa [dataBuf, hf.filled] using hinside
      have hmark := hf.mark (hcount ▸ hid) hlen
      have haccess : ∀ x ∈ t.accesses ++ f.accesses ++ f.entry.bitAccess h.fragmentId ++
          f.entry.bitAccess h.fragmentId ++
          [.payload h.fragmentOffset h.fragmentSize f.entry.payload.length,
            .received h.fragmentSize data.length], x.Inside := by
        intro x hx
        simp only [mem_append, mem_cons, not_mem_nil, or_false] at hx
        rcases hx with (((hx | hx) | hx) | hx) | rfl | rfl
        · exact ht.inside x hx
        · exact hnew x hx
        · exact htest x hx
        · exact htest x hx
        · exact hf.filled ▸ hinside
        · exact hsize
      generalize f.entry.markReceived h.fragmentId = marked at hmark hcount' hrequest' hpayload
      cases hcomplete : marked.complete with
      | false =>
        refine ⟨⟨haccess, ht.filled⟩, ?_⟩
        simp only [complete] at hcomplete
        simp only [getSourceEntry, complete, hcomplete, Bool.not_true,
          Bool.not_false, Bool.false_eq_true, if_true, if_false, getD_some]
        exact hq.put fun r hr => Slot.entry.inj hr ▸ hmark
      | true =>
        refine ⟨⟨haccess, fun d hd => ?_⟩, ?_⟩
        · rcases mem_append.mp hd with hd | hd
          · exact ht.filled d hd
          · obtain rfl := mem_singleton.mp hd
            rw [← hrequest', ← hcount'] at hdivided
            rw [← hrequest']
            exact hmark.filled_of_complete hcomplete hdivided
        · simp only [complete] at hcomplete
          simp only [getSourceEntry, complete, hcomplete, Bool.not_true,
            Bool.false_eq_true, if_false, getD_some]
          exact hq.put fun r hr => by cases hr

theorem processFragment_inv (ht : t.Inv) (hid : h.fragmentId < h.fragmentCount)
    (hgood : ∀ f, t.find h a = some f → f.entry.Copies h → h.fragmentSize ≤ data.length ∧
      h.fragmentOffset + h.fragmentSize < 2 ^ 32 ∧
      Divided h.requestSize h.fragmentCount (f.fragments ++ [h])) :
    Inv { t.processFragment h a data with
      receiver := t.receiver.processFragment h a data } := by
  unfold processFragment Receiver.processFragment
  unfold find at hgood ⊢
  cases hget : t.receiver.getSourceEntry.getRequest h.requestId with
  | none => exact ⟨⟨ht.inside, ht.filled⟩, ht.tracked⟩
  | some found =>
    obtain ⟨q, index⟩ := found
    have hq := ht.tracked.getRequest hget
    rw [hget] at hgood
    dsimp only [bind_some] at hgood ⊢
    cases hslot : q.fragmentedRequests index with
    | completed => exact ⟨⟨ht.inside, ht.filled⟩, hq⟩
    | empty =>
      rw [hslot] at hgood
      refine addFragment_inv ht.toSafe hq (marked_new h a.heap) ?_ hid (hgood _ rfl)
      intro x hx
      obtain rfl := mem_singleton.mp hx
      rw [Access.Inside, (marked_new h a.heap).words]
      exact Nat.lt_succ_self _
    | entry r =>
      rw [hslot] at hgood
      exact addFragment_inv ht.toSafe hq (hq index r hslot) (by simp) hid (hgood _ rfl)

theorem whole_inv (ht : t.Inv) (hsize : h.requestSize = data.length) :
    Inv { t.whole h data with receiver := t.receiver.whole h a data } := by
  unfold whole Receiver.whole
  cases hget : t.receiver.getSourceEntry.getRequest h.requestId with
  | none => exact ⟨⟨ht.inside, ht.filled⟩, ht.tracked⟩
  | some found =>
    obtain ⟨q, index⟩ := found
    have hq := ht.tracked.getRequest hget
    dsimp only
    cases hslot : q.fragmentedRequests index with
    | completed => exact ⟨⟨ht.inside, ht.filled⟩, hq⟩
    | entry r => exact ⟨⟨ht.inside, ht.filled⟩, hq⟩
    | empty =>
      refine ⟨⟨ht.inside, fun d hd => ?_⟩, ?_⟩
      · rcases mem_append.mp hd with hd | hd
        · exact ht.filled d hd
        · obtain rfl := mem_singleton.mp hd
          intro b hb
          exact ⟨(0, data.length), by simp, Nat.zero_le b, by simpa [hsize] using hb⟩
      · have hput : (q.put index .completed).Tracked
            (update t.fragments index (t.fragments index)) := hq.put nofun
        rwa [update_eq_self] at hput

theorem handleInput_inv (ht : t.Inv) (hgood : t.Good c l a) : (t.handleInput c l a).Inv := by
  unfold handleInput
  rw [handleInput_accepts]
  cases hread : accepts c l a with
  | none => exact ht
  | some read =>
    obtain ⟨h, data⟩ := read
    obtain ⟨hid, hwhole⟩ := accepts_header hread
    dsimp only
    by_cases hone : h.fragmentCount = 1
    · rw [if_pos hone, if_pos hone]
      exact whole_inv ht (hwhole hone)
    · rw [if_neg hone, if_neg hone]
      exact processFragment_inv ht hid (hgood h data hread hone)

/-! ## Every run -/

variable {S : Type} [DecidableEq S]

/-- A source that is not known yet. -/
def start (size minPurgeCount : Nat) : Watched :=
  ⟨⟨some (.init size minPurgeCount), []⟩, fun _ => [], [], []⟩

/-- A datagram arrives from a source. -/
def arrive (c : Config) (l : Limits) (s : S → Watched) (from_ : S × Arrival) :
    Option (S → Watched) :=
  some (Function.update s from_.1 ((s from_.1).handleInput c l from_.2))

/-- **Datagrams of any bytes stay inside**, as long as the fragments that are copied are no
longer than what has come, end below 2^32 and follow a division of their payload. -/
theorem hostile_inside (c : Config) (l : Limits) (size minPurgeCount : Nat)
    {arrivals : List (S × Arrival)} {s : S → Watched}
    (hgood : AllSteps (arrive c l) (fun s p => (s p.1).Good c l p.2)
      (fun _ => start size minPurgeCount) arrivals)
    (hrun : run (arrive c l) (fun _ => start size minPurgeCount) arrivals = some s) (source : S) :
    (s source).Safe := by
  have hstart : ∀ _ : S, (start size minPurgeCount).Inv :=
    fun _ => ⟨⟨nofun, nofun⟩, nofun⟩
  have hstep : ∀ (s : S → Watched) (p : S × Arrival) s', (∀ source, (s source).Inv) →
      (s p.1).Good c l p.2 → arrive c l s p = some s' → ∀ source, (s' source).Inv := by
    intro s p s' hs hp harrive source
    obtain rfl := some.inj harrive
    by_cases hsource : source = p.1
    · subst hsource
      rw [update_self]
      exact handleInput_inv (hs _) hp
    · rw [update_of_ne hsource]
      exact hs source
  exact (run_inv_of hstep hstart hgood hrun source).toSafe

/-- A datagram for one of the two fragments of a request of two bytes. -/
def half (fragmentSize fragmentId : UInt8) (data : List UInt8) : Arrival :=
  ⟨[0, 65, 66, 67, 0, 0, 0, 0, 0, 0, 0, 2, 0, 0, 0, fragmentSize, 0, 0, 0, fragmentId,
    0, 0, 0, fragmentId, 0, 0, 0, 2, 0, 0, 0, 0] ++ data, fun _ => 0, fun _ => 0⟩

/-- No checksums. -/
def plain : Config := ⟨.big, 1, 1, false, fun _ => 0⟩

theorem hostile_inside_halves : ∃ s : Unit → Watched,
    run (arrive plain ⟨8, false⟩) (fun _ => start 1 1)
      [((), half 1 0 [7]), ((), half 1 1 [8])] = some s ∧ (s ()).Safe := by
  have hcover : ∀ b < 2, ∃ id < 2, id ≤ b ∧ b < id + 1 :=
    fun b hb => ⟨b, hb, le_refl b, Nat.lt_succ_self b⟩
  have hfirst : Divided 2 2 [⟨.big, 0, 2, 1, 0, 0, 2, 0⟩] := ⟨fun id => (id, 1), hcover, by decide⟩
  have hboth : Divided 2 2 [⟨.big, 0, 2, 1, 0, 0, 2, 0⟩, ⟨.big, 0, 2, 1, 1, 1, 2, 0⟩] :=
    ⟨fun id => (id, 1), hcover, by decide⟩
  have hgood : AllSteps (arrive plain ⟨8, false⟩) (fun s p => (s p.1).Good plain ⟨8, false⟩ p.2)
      (fun _ : Unit => start 1 1) [((), half 1 0 [7]), ((), half 1 1 [8])] := by
    refine ⟨fun h data hread _ f hf _ => ?_, fun s hs => ⟨fun h data hread _ f hf _ => ?_,
      fun _ _ => trivial⟩⟩
    · cases hread
      cases hf
      exact ⟨by decide, by decide, hfirst⟩
    · cases hs
      cases hread
      cases hf
      exact ⟨by decide, by decide, hboth⟩
  exact ⟨_, rfl, hostile_inside plain _ 1 1 hgood rfl ()⟩

theorem short_accesses : ((start 1 1).handleInput plain ⟨8, false⟩ (half 2 0 [])).accesses =
    [.bits 0 1, .bits 0 1, .bits 0 1, .payload 0 2 2, .received 2 0] := rfl

/-- The size of a fragment that has not come. -/
theorem short_fragment_read : ¬∀ (c : Config) (l : Limits) (size minPurgeCount : Nat)
    (arrivals : List (Unit × Arrival)) (s : Unit → Watched),
    run (arrive c l) (fun _ => start size minPurgeCount) arrivals = some s →
      ∀ source, (s source).Safe := by
  intro h
  have hsafe := h plain ⟨8, false⟩ 1 1 [((), half 2 0 [])] _ rfl ()
  have hread := hsafe.inside (.received 2 0) (by
    rw [update_self, short_accesses]
    simp)
  exact absurd (show 2 ≤ 0 from hread) (by decide)

end Watched

end Atcd.Event
