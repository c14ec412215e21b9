import Atcd.Core.Run
import Atcd.Event.MessageReceiver
/-!
# The window of request identifiers

The places for the requests of a source are an array over a window of identifiers, which is
moved up to an identifier above it, by at least `min_purge_count`; the places that leave it are
purged. The fields are 32 bits wide, the place is an `int`, and the loop that purges counts past
its last identifier.

Results:
- `getRequest_loop`: the loop ends, and the call is the one of the model without it;
- `getRequest_kept`: what the places hold, in the window that is moved;
- `window_sound`: as long as the window is not moved past the last identifier, a request is
  decoded at most once, and the places are those of the requests.
-/
namespace Atcd.Event
open Atcd.Core List Option Requests Nat

namespace Requests

/-- The loop of `purge_requests`, from an identifier on; the counter wraps.
mirrors TAO/orbsvcs/orbsvcs/Event/ECG_CDR_Message_Receiver.cpp:213-228 -/
def purgeLoop (q : Requests) (last : Nat) : Nat → Nat → Option Requests
  | 0, i => if i ≤ last then none else some q
  | fuel + 1, i =>
    if i ≤ last then (q.put (i % q.size) .empty).purgeLoop last fuel ((i + 1) % 2 ^ 32)
    else some q

/-- The window moved, with the loop. -/
def shiftLoop (q : Requests) (fuel requestId : Nat) : Option Requests :=
  let newSlotsNeeded := max (requestId - q.idRangeHigh) q.minPurgeCount
  if newSlotsNeeded > q.size then
    (q.purgeLoop q.idRangeHigh fuel q.idRangeLow).map fun q =>
      { q with idRangeHigh := requestId, idRangeLow := requestId - q.size + 1 }
  else
    (q.purgeLoop ((q.idRangeLow + newSlotsNeeded - 1) % 2 ^ 32) fuel q.idRangeLow).map fun q =>
      { q with
        idRangeHigh := (q.idRangeHigh + newSlotsNeeded) % 2 ^ 32
        idRangeLow := (q.idRangeLow + newSlotsNeeded) % 2 ^ 32 }

/-- The place as an `int`; the outer `none` when the loop does not end with the fuel.
mirrors ECG_CDR_Message_Receiver.cpp:173-210 -/
def getRequestLoop (q : Requests) (fuel requestId : Nat) : Option (Option (Requests × Int)) :=
  if requestId < q.idRangeLow then some none
  else
    (if requestId > q.idRangeHigh then q.shiftLoop fuel requestId else some q).map fun q =>
      some (q, ((requestId % q.size : Nat) : Int).bmod (2 ^ 32))

variable {q : Requests} {ids : List Nat} {n : Nat}

theorem purge_step (q : Requests) {first last : Nat} (h : first ≤ last) :
    q.purge first last = (q.put (first % q.size) .empty).purge (first + 1) last := by
  have hlen : last + 1 - first = last + 1 - (first + 1) + 1 := by omega
  rw [purge, purge, hlen, range'_succ, foldl_cons]
  rfl

theorem purgeLoop_past {last i : Nat} (h : last < i) (fuel : Nat) :
    q.purgeLoop last fuel i = some q := by
  cases fuel <;> rw [purgeLoop, if_neg (by omega)]

/-- The loop ends, unless it is to purge the last of all identifiers. -/
theorem purgeLoop_eq {last : Nat} (hlast : last + 1 < 2 ^ 32) (k : Nat) :
    ∀ {q : Requests} {i : Nat}, i + k = last + 1 → q.purgeLoop last k i = some (q.purge i last) := by
  induction k with
  | zero =>
    intro q i hi
    have hzero : last + 1 - i = 0 := by omega
    rw [purgeLoop_past (by omega), purge, hzero]
    rfl
  | succ k ih =>
    intro q i hi
    have hnext : (i + 1) % 2 ^ 32 = i + 1 := mod_eq_of_lt (by omega)
    rw [purgeLoop, if_pos (by omega), hnext, ih (by omega), purge_step q (by omega)]

theorem purgeLoop_fields {last : Nat} (fuel : Nat) : ∀ {q q' : Requests} {i : Nat},
    q.purgeLoop last fuel i = some q' →
      q'.idRangeLow = q.idRangeLow ∧ q'.idRangeHigh = q.idRangeHigh := by
  induction fuel with
  | zero =>
    intro q q' i h
    rw [purgeLoop] at h
    split_ifs at h
    obtain rfl := some.inj h
    exact ⟨rfl, rfl⟩
  | succ fuel ih =>
    intro q q' i h
    rw [purgeLoop] at h
    split_ifs at h
    · have hrest := ih h
      exact hrest
    · obtain rfl := some.inj h
      exact ⟨rfl, rfl⟩

theorem foldl_clear (m place : Nat) (l : List Nat) : ∀ slots : Nat → Slot,
    (l.foldl (fun slots i => Function.update slots (i % m) .empty) slots) place =
      if ∃ i ∈ l, i % m = place then .empty else slots place := by
  induction l with
  | nil => simp
  | cons i l ih =>
    intro slots
    rw [foldl_cons, ih]
    by_cases hi : i % m = place
    · simp [hi]
    · have hne : place ≠ i % m := fun h => hi h.symm
      simp [hi, hne]

theorem purge_empty {first last i : Nat} (hfirst : first ≤ i) (hlast : i ≤ last) :
    (q.purge first last).fragmentedRequests (i % q.size) = .empty := by
  rw [purge]
  dsimp only
  rw [foldl_clear, if_pos]
  exact ⟨i, by rw [mem_range'_1]; omega, rfl⟩

theorem purge_other {first last place : Nat}
    (h : ∀ i, first ≤ i → i ≤ last → i % q.size ≠ place) :
    (q.purge first last).fragmentedRequests place = q.fragmentedRequests place := by
  rw [purge]
  dsimp only
  rw [foldl_clear, if_neg]
  rintro ⟨i, hi, hplace⟩
  rw [mem_range'_1] at hi
  exact h i hi.1 (by omega) hplace

theorem place_inj (low : Nat) {i w : Nat} (hi : low ≤ i) (hi' : i < low + n) (hw : low ≤ w)
    (hw' : w < low + n) (h : i % n = w % n) : i = w := by
  rcases Nat.le_total i w with hle | hle
  · have hdvd := (modEq_iff_dvd' hle).mp h
    have := eq_zero_of_dvd_of_lt hdvd (by omega)
    omega
  · have hdvd := (modEq_iff_dvd' hle).mp h.symm
    have := eq_zero_of_dvd_of_lt hdvd (by omega)
    omega

theorem exists_place (hn : 0 < n) (low w : Nat) :
    ∃ i, low ≤ i ∧ i < low + n ∧ i % n = w % n := by
  refine ⟨low + (w + n * low - low) % n, by omega, ?_, ?_⟩
  · have := mod_lt (w + n * low - low) hn
    omega
  · have hle : low ≤ w + n * low := by nlinarith
    rw [add_mod_mod, Nat.add_sub_cancel' hle, add_mul_mod_self_left]

/-- What a place holds for an identifier, when these have been decoded. -/
def Slot.For (ids : List Nat) (requestId : Nat) : Slot → Prop
  | .empty => True
  | .completed => requestId ∈ ids
  | .entry r => r.requestId = requestId

/-- The window, the places of its identifiers, and what has been decoded. -/
structure Kept (n minPurge : Nat) (q : Requests) (ids : List Nat) : Prop where
  size : q.size = n
  minPurge : q.minPurgeCount = minPurge
  window : q.idRangeHigh + 1 = q.idRangeLow + n
  top : q.idRangeHigh < 2 ^ 32
  slots : ∀ w, q.idRangeLow ≤ w → w ≤ q.idRangeHigh →
    Slot.For ids w (q.fragmentedRequests (w % n))
  decoded : ∀ w ∈ ids, w ≤ q.idRangeHigh ∧
    (q.idRangeLow ≤ w → q.fragmentedRequests (w % n) = .completed)
  once : ids.Nodup

/-- The window is not moved past the last identifier. -/
def Below (minPurge : Nat) (q : Requests) (requestId : Nat) : Prop :=
  requestId < 2 ^ 32 ∧ (q.idRangeHigh < requestId → q.idRangeHigh + minPurge < 2 ^ 32)

variable {minPurge requestId place : Nat} {q' : Requests}

theorem Kept.shiftLoop_eq (hn : 0 < n) (h : q.Kept n minPurge ids)
    (hid : requestId < 2 ^ 32) (habove : q.idRangeHigh < requestId) :
    ∃ fuel, q.shiftLoop fuel requestId = some (q.shift requestId) := by
  have hsize := h.size
  have hwindow := h.window
  unfold shiftLoop shift
  dsimp only
  split_ifs with hfar
  · refine ⟨q.idRangeHigh + 1 - q.idRangeLow, ?_⟩
    rw [purgeLoop_eq (by omega) _ (by omega)]
    rfl
  · have hlast : (q.idRangeLow + max (requestId - q.idRangeHigh) q.minPurgeCount - 1) % 2 ^ 32 =
        q.idRangeLow + max (requestId - q.idRangeHigh) q.minPurgeCount - 1 :=
      mod_eq_of_lt (by omega)
    refine ⟨max (requestId - q.idRangeHigh) q.minPurgeCount, ?_⟩
    rw [hlast, purgeLoop_eq (by omega) _ (by omega)]
    rfl

theorem Kept.shift (hn : 0 < n) (hm : minPurge ≤ n) (h : q.Kept n minPurge ids)
    (hbelow : q.Below minPurge requestId) (habove : q.idRangeHigh < requestId) :
    (q.shift requestId).Kept n minPurge ids ∧ (q.shift requestId).idRangeLow ≤ requestId ∧
      requestId ≤ (q.shift requestId).idRangeHigh := by
  obtain ⟨rfl, rfl, hwindow, htop, hslots, hdecoded, honce⟩ := h
  obtain ⟨hid, hbelow⟩ := hbelow
  have hroom := hbelow habove
  unfold shift
  dsimp only
  split_ifs with hfar
  · -- the whole window is left behind
    have hall : ∀ w,
        (q.purge q.idRangeLow q.idRangeHigh).fragmentedRequests (w % q.size) = .empty := by
      intro w
      obtain ⟨i, hi, hi', hplace⟩ := exists_place hn q.idRangeLow w
      rw [← hplace]
      exact purge_empty hi (by omega)
    refine ⟨⟨rfl, rfl, by dsimp only; omega, hid, fun w _ _ => ?_, fun w hw => ?_, honce⟩,
      by dsimp only; omega, le_rfl⟩
    · dsimp only
      rw [hall]
      trivial
    · have := (hdecoded w hw).1
      exact ⟨by dsimp only; omega, fun hlow => by dsimp only at hlow; omega⟩
  · generalize hneed : max (requestId - q.idRangeHigh) q.minPurgeCount = needed at hfar
    have hhigh : (q.idRangeHigh + needed) % 2 ^ 32 = q.idRangeHigh + needed :=
      mod_eq_of_lt (by omega)
    have hlow : (q.idRangeLow + needed) % 2 ^ 32 = q.idRangeLow + needed :=
      mod_eq_of_lt (by omega)
    rw [hhigh, hlow]
    have hstay : ∀ w, q.idRangeLow + needed ≤ w → w ≤ q.idRangeHigh →
        (q.purge q.idRangeLow (q.idRangeLow + needed - 1)).fragmentedRequests (w % q.size) =
          q.fragmentedRequests (w % q.size) := by
      intro w hw hw'
      apply purge_other
      intro i hi hi' hplace
      have := place_inj q.idRangeLow hi (by omega) (by omega) (by omega) hplace
      omega
    refine ⟨⟨rfl, rfl, by dsimp only; omega, by dsimp only; omega, fun w hw hw' => ?_,
      fun w hw => ?_, honce⟩, by dsimp only; omega, by dsimp only; omega⟩
    · dsimp only at hw hw' ⊢
      rcases Nat.lt_or_ge q.idRangeHigh w with hnew | hin
      · -- a new identifier has the place of one that is purged
        have hback : (w - q.size) % q.size = w % q.size := by
          rw [← add_mod_right (w - q.size) q.size, Nat.sub_add_cancel (by omega)]
        rw [← hback, purge_empty (by omega) (by omega)]
        trivial
      · rw [hstay w hw hin]
        exact hslots w (by omega) hin
    · obtain ⟨hle, hdone⟩ := hdecoded w hw
      refine ⟨by dsimp only; omega, fun hw' => ?_⟩
      dsimp only at hw' ⊢
      rw [hstay w hw' hle]
      exact hdone (by omega)

theorem getRequest_kept (hn : 0 < n) (hm : minPurge ≤ n) (h : q.Kept n minPurge ids)
    (hbelow : q.Below minPurge requestId) (hget : q.getRequest requestId = some (q', place)) :
    q'.Kept n minPurge ids ∧ q'.idRangeLow ≤ requestId ∧ requestId ≤ q'.idRangeHigh ∧
      place = requestId % n := by
  rw [getRequest] at hget
  split_ifs at hget with hlow habove
  · obtain ⟨rfl, rfl⟩ := Prod.mk.inj (some.inj hget)
    obtain ⟨hkept, hle, hge⟩ := h.shift hn hm hbelow habove
    exact ⟨hkept, hle, hge, by rw [hkept.size]⟩
  · obtain ⟨rfl, rfl⟩ := Prod.mk.inj (some.inj hget)
    exact ⟨h, by omega, by omega, by rw [h.size]⟩

/-- The call with the loop is the one without it. -/
theorem getRequest_loop (hn : 0 < n) (h : q.Kept n minPurge ids)
    (hid : requestId < 2 ^ 32) : ∃ fuel, q.getRequestLoop fuel requestId =
      some ((q.getRequest requestId).map fun r => (r.1, (r.2 : Int).bmod (2 ^ 32))) := by
  unfold getRequestLoop getRequest
  split_ifs with hlow habove
  · exact ⟨0, rfl⟩
  · obtain ⟨fuel, hfuel⟩ := h.shiftLoop_eq hn hid habove
    exact ⟨fuel, by rw [hfuel]; rfl⟩
  · exact ⟨0, rfl⟩

theorem Slot.For.mono {ids' : List Nat} {slot : Slot} (h : Slot.For ids requestId slot)
    (hsub : ids ⊆ ids') : Slot.For ids' requestId slot := by
  cases slot with
  | completed => exact hsub h
  | _ => exact h

/-- A place that is not completed gets what is for its identifier. -/
theorem Kept.put {slot : Slot} {ids' : List Nat} (h : q.Kept n minPurge ids)
    (hlow : q.idRangeLow ≤ requestId) (hhigh : requestId ≤ q.idRangeHigh)
    (hopen : q.fragmentedRequests (requestId % n) ≠ .completed)
    (hfor : Slot.For ids' requestId slot)
    (hids : ids' = ids ∨ (ids' = ids ++ [requestId] ∧ slot = .completed)) :
    (q.put (requestId % n) slot).Kept n minPurge ids' := by
  have hwindow := h.window
  have hsub : ids ⊆ ids' := by
    rcases hids with rfl | ⟨rfl, -⟩
    · exact Subset.refl _
    · exact subset_append_left _ _
  have hnew : requestId ∉ ids := fun hmem => hopen ((h.decoded _ hmem).2 hlow)
  have hother : ∀ w, q.idRangeLow ≤ w → w ≤ q.idRangeHigh → w ≠ requestId →
      (q.put (requestId % n) slot).fragmentedRequests (w % n) = q.fragmentedRequests (w % n) := by
    intro w hw hw' hne
    apply Function.update_of_ne
    intro hplace
    exact hne (place_inj q.idRangeLow hw (by omega) hlow (by omega) hplace)
  have hsame : (q.put (requestId % n) slot).fragmentedRequests (requestId % n) = slot :=
    Function.update_self ..
  refine ⟨h.size, h.minPurge, h.window, h.top, fun w hw hw' => ?_, fun w hw => ?_, ?_⟩
  · by_cases hne : w = requestId
    · subst hne
      rw [hsame]
      exact hfor
    · rw [hother w hw hw' hne]
      exact (h.slots w hw hw').mono hsub
  · by_cases hne : w = requestId
    · subst hne
      refine ⟨hhigh, fun _ => ?_⟩
      rcases hids with rfl | ⟨-, rfl⟩
      · exact absurd hw hnew
      · exact hsame
    · have hmem : w ∈ ids := by
        rcases hids with rfl | ⟨rfl, -⟩
        · exact hw
        · simpa [hne] using hw
      obtain ⟨hle, hdone⟩ := h.decoded w hmem
      refine ⟨hle, fun hw' => ?_⟩
      rw [hother w hw' hle hne]
      exact hdone hw'
  · rcases hids with rfl | ⟨rfl, -⟩
    · exact h.once
    · rw [← concat_eq_append]
      exact h.once.concat hnew

end Requests

/-! ## Messages from one source -/

/-- A fragment whose header has been read. -/
structure Received where
  header : McastHeader
  arrival : Arrival
  data : List UInt8

/-- The receiver, and the identifiers of the requests that have been decoded. -/
structure Traced where
  receiver : Receiver
  ids : List Nat

namespace Traced

def start (n minPurge : Nat) : Traced := ⟨⟨some (.init n minPurge), []⟩, []⟩

/-- mirrors ECG_CDR_Message_Receiver.cpp:338-356 -/
def process (s : Receiver) (m : Received) : Receiver :=
  if m.header.fragmentCount = 1 then s.whole m.header m.arrival m.data
  else s.processFragment m.header m.arrival m.data

def step (s : Traced) (m : Received) : Option Traced :=
  let receiver := process s.receiver m
  some ⟨receiver, if receiver.decoded.length > s.receiver.decoded.length then
    s.ids ++ [m.header.requestId] else s.ids⟩

/-- The window is not moved past the last identifier, and the place fits an `int`. -/
def Good (n minPurge : Nat) (s : Traced) (requestId : Nat) : Prop :=
  s.receiver.getSourceEntry.Below minPurge requestId ∧ requestId % n < 2 ^ 31

/-- What a call of `get_request` does: it ends, the window is one of the size, and the place is
that of the request, which is completed only if it has been decoded. -/
def Answers (n : Nat) (s : Traced) (requestId : Nat) : Prop :=
  ∃ fuel result, s.receiver.getSourceEntry.getRequestLoop fuel requestId = some result ∧
    ∀ q place, result = some (q, place) →
      q.idRangeHigh + 1 = q.idRangeLow + n ∧ q.idRangeHigh < 2 ^ 32 ∧
        place = (requestId % n : Nat) ∧
        Requests.Slot.For s.ids requestId (q.fragmentedRequests (requestId % n))

variable {n minPurge : Nat} {q : Requests} {ids : List Nat} {s : Receiver} {m : Received}

/-- What a message leaves. -/
def After (n minPurge : Nat) (s s' : Receiver) (ids : List Nat) (requestId : Nat) : Prop :=
  ∃ q, s'.requests = some q ∧ ((s'.decoded = s.decoded ∧ q.Kept n minPurge ids) ∨
    (s.decoded.length < s'.decoded.length ∧ q.Kept n minPurge (ids ++ [requestId])))

/-- A place in the window that the message may change. -/
structure Open (n minPurge : Nat) (q : Requests) (ids : List Nat) (requestId : Nat) : Prop where
  kept : q.Kept n minPurge ids
  low : q.idRangeLow ≤ requestId
  high : requestId ≤ q.idRangeHigh
  noted : q.fragmentedRequests (requestId % n) ≠ .completed

theorem Open.completed (h : Open n minPurge q ids m.header.requestId)
    (d : List (Endian × List UInt8)) (hd : s.decoded.length < d.length) :
    After n minPurge s ⟨some (q.put (m.header.requestId % n) .completed), d⟩ ids
      m.header.requestId := by
  refine ⟨_, rfl, .inr ⟨hd, h.kept.put h.low h.high h.noted ?_ (.inr ⟨rfl, rfl⟩)⟩⟩
  exact mem_append_right _ (mem_singleton_self _)

theorem addFragment_after (h : Open n minPurge q ids m.header.requestId) {r : RequestEntry}
    (hr : r.requestId = m.header.requestId) : After n minPurge s
      (s.addFragment q (m.header.requestId % n) r m.header m.arrival m.data) ids
      m.header.requestId := by
  have hentry : ∀ r : RequestEntry, r.requestId = m.header.requestId →
      After n minPurge s
        { s with requests := some (q.put (m.header.requestId % n) (.entry r)) } ids
        m.header.requestId :=
    fun r hr => ⟨_, rfl, .inl ⟨rfl, h.kept.put h.low h.high h.noted hr (.inl rfl)⟩⟩
  have hmark : (r.markReceived m.header.fragmentId).requestId = m.header.requestId := by
    unfold RequestEntry.markReceived
    split_ifs <;> exact hr
  unfold Receiver.addFragment
  dsimp only
  split_ifs
  · exact hentry r hr
  · exact hentry r hr
  · exact hentry _ hmark
  · exact h.completed _ (by simp)

theorem process_after (hn : 0 < n) (hm : minPurge ≤ n)
    (h : s.getSourceEntry.Kept n minPurge ids)
    (hbelow : s.getSourceEntry.Below minPurge m.header.requestId) :
    After n minPurge s (process s m) ids m.header.requestId := by
  unfold process Receiver.whole Receiver.processFragment
  cases hget : s.getSourceEntry.getRequest m.header.requestId with
  | none =>
    split_ifs <;> exact ⟨_, rfl, .inl ⟨rfl, h⟩⟩
  | some found =>
    obtain ⟨q, place⟩ := found
    obtain ⟨hkept, hlow, hhigh, rfl⟩ := getRequest_kept hn hm h hbelow hget
    have hslot := hkept.slots _ hlow hhigh
    dsimp only
    cases hplace : q.fragmentedRequests (m.header.requestId % n) with
    | completed =>
      split_ifs <;> exact ⟨_, rfl, .inl ⟨rfl, hkept⟩⟩
    | empty =>
      have hopen : Open n minPurge q ids m.header.requestId :=
        ⟨hkept, hlow, hhigh, by simp [hplace]⟩
      split_ifs
      · exact hopen.completed _ (by simp)
      · exact addFragment_after hopen rfl
    | entry r =>
      rw [hplace] at hslot
      have hopen : Open n minPurge q ids m.header.requestId :=
        ⟨hkept, hlow, hhigh, by simp [hplace]⟩
      split_ifs
      · exact ⟨_, rfl, .inl ⟨rfl, hkept⟩⟩
      · exact addFragment_after hopen hslot

def Inv (n minPurge : Nat) (t : Traced) : Prop :=
  t.receiver.getSourceEntry.Kept n minPurge t.ids

theorem step_inv (hn : 0 < n) (hm : minPurge ≤ n) {t t' : Traced} (h : Inv n minPurge t)
    (hgood : t.Good n minPurge m.header.requestId) (hstep : t.step m = some t') :
    Inv n minPurge t' := by
  obtain rfl := some.inj hstep
  obtain ⟨q, hq, hdone⟩ := process_after (m := m) hn hm h hgood.1
  unfold Inv
  have hentry : (process t.receiver m).getSourceEntry = q := by
    rw [Receiver.getSourceEntry, hq, getD_some]
  rw [hentry]
  rcases hdone with ⟨hsame, hkept⟩ | ⟨hmore, hkept⟩
  · rwa [if_neg (by rw [hsame]; exact lt_irrefl _)]
  · rwa [if_pos hmore]

theorem start_inv (hn : 0 < n) (hsize : n ≤ 2 ^ 32) : Inv n minPurge (start n minPurge) := by
  refine ⟨rfl, rfl, ?_, ?_, fun _ _ _ => trivial, nofun, nodup_nil⟩
  · change n - 1 + 1 = 0 + n
    omega
  · change n - 1 < 2 ^ 32
    omega

/-- **The window is sound**, as long as it is not moved past the last identifier. -/
theorem window_sound (hn : 0 < n) (hm : minPurge ≤ n) (hsize : n ≤ 2 ^ 32)
    {messages : List Received} {t : Traced}
    (hgood : AllSteps step (fun t m => t.Good n minPurge m.header.requestId) (start n minPurge)
      messages)
    (hrun : run step (start n minPurge) messages = some t) :
    t.ids.Nodup ∧ ∀ requestId, t.Good n minPurge requestId → t.Answers n requestId := by
  have hstep : ∀ (t : Traced) (m : Received) t', Inv n minPurge t →
      t.Good n minPurge m.header.requestId → t.step m = some t' → Inv n minPurge t' :=
    fun t m t' h hg hs => step_inv hn hm h hg hs
  have h := run_inv_of hstep (start_inv hn hsize) hgood hrun
  refine ⟨h.once, fun requestId hgood => ?_⟩
  obtain ⟨fuel, hfuel⟩ := getRequest_loop hn h hgood.1.1
  refine ⟨fuel, _, hfuel, fun q place heq => ?_⟩
  obtain ⟨⟨q', place'⟩, hget, hpair⟩ := map_eq_some_iff.mp heq
  obtain ⟨rfl, rfl⟩ := Prod.mk.inj hpair
  obtain ⟨hkept, hlow, hhigh, rfl⟩ := getRequest_kept hn hm h hgood.1 hget
  refine ⟨hkept.window, hkept.top, ?_, hkept.slots _ hlow hhigh⟩
  have hsmall := hgood.2
  exact Int.bmod_eq_of_le (by omega) (by omega)

/-- A message in one fragment, of one byte. -/
def oneByte (requestId : Nat) : Received where
  header := ⟨.big, requestId, 1, 1, 0, 0, 1, 0⟩
  arrival := ⟨[], fun _ => 0, fun _ => 0⟩
  data := [0]

theorem window_sound_oneByte : ∃ t, run step (start 2 1) [oneByte 5] = some t ∧
    t.ids.Nodup ∧ t.Answers 2 7 := by
  have hgood : AllSteps step (fun t m => t.Good 2 1 m.header.requestId) (start 2 1)
      [oneByte 5] := by
    refine ⟨⟨⟨by decide, fun _ => by decide⟩, by decide⟩, fun _ _ => trivial⟩
  obtain ⟨honce, hanswers⟩ := window_sound (by decide) (by decide) (by decide) hgood rfl
  exact ⟨_, rfl, honce, hanswers 7 ⟨⟨by decide, fun _ => by decide⟩, by decide⟩⟩

theorem oneByte_moves : ((start 2 2).step (oneByte (2 ^ 32 - 2))).map (fun t =>
    ((t.receiver.getSourceEntry.size, t.receiver.getSourceEntry.minPurgeCount),
      t.receiver.getSourceEntry.idRangeLow, t.receiver.getSourceEntry.idRangeHigh)) =
      some ((2, 2), 2 ^ 32 - 3, 2 ^ 32 - 2) := by
  simp [step, process, Receiver.whole, start, oneByte, getRequest, shift,
    init, Receiver.getSourceEntry, purge, put, range'_succ]

/-- The window is moved by two past the last identifier but one. -/
theorem window_wraps : ¬ ∀ n minPurge messages t, 0 < n → minPurge ≤ n →
    run step (start n minPurge) messages = some t →
      ∀ requestId < 2 ^ 32, t.Answers n requestId := by
  intro h
  obtain ⟨t, hstep, hfields⟩ := map_eq_some_iff.mp oneByte_moves
  have hrun : run step (start 2 2) [oneByte (2 ^ 32 - 2)] = some t := by
    rw [run_cons, hstep]
    rfl
  obtain ⟨fuel, result, hloop, hall⟩ :=
    h 2 2 _ t (by decide) (by decide) hrun (2 ^ 32 - 1) (by decide)
  simp only [Prod.mk.injEq] at hfields
  rw [getRequestLoop, if_neg (by omega), if_pos (by omega), shiftLoop] at hloop
  rw [if_neg (by omega)] at hloop
  obtain ⟨q, hq, rfl⟩ := map_eq_some_iff.mp hloop
  obtain ⟨q', hpurge, rfl⟩ := map_eq_some_iff.mp hq
  obtain ⟨hlow', hhigh'⟩ := purgeLoop_fields fuel hpurge
  have hwindow := (hall _ _ rfl).1
  dsimp only at hwindow
  omega

end Traced

end Atcd.Event
