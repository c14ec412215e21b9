import Atcd.Core.Run
import Atcd.Tokens.Local
/-!
# The writers' counter of `ACE_RW_Token`

`num_writers_` is to be the number of queued writers with their nested acquisitions. It is
kept by `ACE_RW_Token`, but `ACE_Token_Proxy::release` takes an entry off the queue by
`ACE_Tokens::remove` where the token refuses the release, and an owner is known by its client
only, whichever of its proxies it calls through. The list stands for the queue as long as no
entry is queued twice and none is put behind the last waiter by a position, after which the
queue loses entries (`QueueState.keeps_iff`).

Results:
- `step_iff`: the calls that keep the count;
- `count_iff`: the runs in which the queue stays whole, the count is right, and readers are
  refused behind writers alone;
- `give_up_miscounts`: a waiting writer that gives up stays counted.
-/
namespace Atcd.Token

open Atcd.Core Tokens RWToken List Option

variable {Client : Type*} [DecidableEq Client]

/-- mirrors ACE/ace/Local_Tokens.cpp:1388-1418 -/
def proxyRelease (t : Tokens Client) (caller : Entry Client) : Outcome Client :=
  let o := RWToken.release t caller
  if o.answer = .success then o else { o with token := o.token.remove caller }

/-- A call through a proxy; `deadlock` is what `check_deadlock` would find. -/
inductive ProxyCall (Client : Type*)
  | acquire (caller : Entry Client) (deadlock : Bool)
  | tryacquire (caller : Entry Client)
  | renew (caller : Entry Client) (requeuePosition : Int)
  | release (caller : Entry Client)

namespace ProxyCall

/-- The caller, taken off the queue, is not put behind the last waiter by a position. -/
def InRange (t : Tokens Client) (caller : Entry Client) (position : Int) : Prop :=
  position = 0 ∨ position = -1 ∨ t.waiters.erase caller = [] ∨
    max position.toNat 1 < (t.waiters.erase caller).length

instance (t : Tokens Client) (caller : Entry Client) (position : Int) :
    Decidable (InRange t caller position) := inferInstanceAs (Decidable (_ ∨ _))

/-- No entry is queued twice, and none behind the last one by its position. -/
def Queues (t : Tokens Client) : ProxyCall Client → Prop
  | .acquire e deadlock => e ∈ t.waiters → RWToken.isOwner t e.client = true ∨ deadlock = true
  | .renew e position =>
    RWToken.isOwner t e.client = true → t.waiters.length ≠ 1 → InRange t e position
  | .tryacquire _ | .release _ => True

instance (t : Tokens Client) : DecidablePred (Queues t)
  | .acquire _ _ | .renew _ _ => inferInstanceAs (Decidable (_ → _))
  | .tryacquire _ | .release _ => inferInstanceAs (Decidable True)

def step (t : Tokens Client) : ProxyCall Client → Option (Tokens Client)
  | .acquire e deadlock => (RWToken.acquire t e deadlock).map (·.token)
  | .tryacquire e => (RWToken.tryacquire t e).map (·.token)
  | .renew e position =>
    if Queues t (.renew e position) then (RWToken.renew t e position).map (·.token) else none
  | .release e => some (proxyRelease t e).token

def start : Tokens Client := ⟨[], 0, fun _ => 0⟩

def share (t : Tokens Client) (e : Entry Client) : Nat :=
  if e.type = .writer then 1 + t.nesting e else 0

def writers (t : Tokens Client) : Nat := (t.waiters.map (share t)).sum

def Exact (t : Tokens Client) : Prop := t.numWriters = writers t

/-- A reader that is not granted the token finds a writer in the queue. -/
def RefusedBehindWriter (t : Tokens Client) : Prop :=
  ∀ e deadlock o, e.type = .reader → RWToken.acquire t e deadlock = some o →
    o.answer ≠ .success → ∃ w ∈ t.waiters, w.type = .writer

/-- A writer's proxy stands in the queue where its client owns the token, and is not given
up from the queue where it does not. -/
def Counts (t : Tokens Client) : ProxyCall Client → Prop
  | .acquire e _ | .tryacquire e =>
    e.type = .writer → RWToken.isOwner t e.client = true → e ∈ t.waiters
  | .renew e position =>
    e.type = .writer → RWToken.isOwner t e.client = true →
      t.waiters.length ≠ 1 → position ≠ 0 → e ∈ t.waiters
  | .release e => e.type = .writer → (RWToken.isOwner t e.client = true ↔ e ∈ t.waiters)

def Kept (t : Tokens Client) (call : ProxyCall Client) : Prop := Queues t call ∧ Counts t call

/-- Entries are queued once, and a writer that is not queued has nothing nested. -/
structure Good (t : Tokens Client) : Prop where
  nodup : t.waiters.Nodup
  idle : ∀ e, e.type = .writer → e ∉ t.waiters → t.nesting e = 0
  exact : Exact t

/-! ## The sum -/

variable {t : Tokens Client} {e : Entry Client}

omit [DecidableEq Client] in
theorem share_congr {t' : Tokens Client} (h : t'.nesting = t.nesting) : share t' = share t := by
  funext e
  simp only [share, h]

omit [DecidableEq Client] in
theorem writers_joined (t : Tokens Client) (e : Entry Client) :
    writers (joined t e) = writers t + share t e := by
  have hshare : share (joined t e) = share t := share_congr (countWriter_nesting t e 1)
  unfold writers
  rw [hshare]
  simp [joined]

theorem writers_remove (h : e ∈ t.waiters) :
    share t e + writers (t.remove e) = writers t := sum_map_erase _ h

theorem writers_remove_absent (h : e ∉ t.waiters) : writers (t.remove e) = writers t := by
  unfold writers Tokens.remove
  rw [erase_of_not_mem h]

/-- Where the nesting levels differ by one at a queued writer. -/
theorem sum_share {q : List (Entry Client)} (hq : q.Nodup) {t' : Tokens Client}
    (h : ∀ x, t'.nesting x = t.nesting x + if x = e then 1 else 0) : (q.map (share t')).sum =
      (q.map (share t)).sum + if e ∈ q ∧ e.type = .writer then 1 else 0 := by
  induction q with
  | nil => simp
  | cons a q ih =>
    obtain ⟨ha, hq⟩ := nodup_cons.mp hq
    rw [map_cons, sum_cons, map_cons, sum_cons, ih hq]
    by_cases hae : a = e
    · subst hae
      by_cases hw : a.type = .writer
      · simp [share, h, ha, hw]
        omega
      · simp [share, hw]
    · simp [share, h, hae, Ne.symm hae]
      omega

/-! ## The calls -/

omit [DecidableEq Client] in
/-- A call that queues its entry. -/
theorem Good.joined (h : Good t) (hq : e ∉ t.waiters) : Good (joined t e) where
  nodup := nodup_append.mpr ⟨h.nodup, nodup_singleton e, by
    intro a ha b hb hab
    rw [mem_singleton.mp hb] at hab
    exact hq (hab ▸ ha)⟩
  idle x hw hx := by
    have hmem : x ∉ t.waiters := fun hmem => hx (mem_append_left _ hmem)
    exact (congrFun (countWriter_nesting t e 1) x).trans (h.idle x hw hmem)
  exact := by
    have hex := h.exact
    unfold Exact at hex ⊢
    rw [numWriters_joined, writers_joined, hex]
    by_cases hw : e.type = .writer
    · simp [share, hw, h.idle e hw hq]
    · simp [share, hw]

theorem nested_iff (h : Good t) :
    (Exact ((countWriter t e 1).nest e) ↔ (e.type = .writer → e ∈ t.waiters)) ∧
      ((e.type = .writer → e ∈ t.waiters) → Good ((countWriter t e 1).nest e)) := by
  have hnest : ∀ x, ((countWriter t e 1).nest e).nesting x =
      t.nesting x + if x = e then 1 else 0 := by
    intro x
    by_cases hx : x = e
    · subst hx
      simp [nest]
    · simp [nest, hx]
  have hsum : writers ((countWriter t e 1).nest e) =
      writers t + if e ∈ t.waiters ∧ e.type = .writer then 1 else 0 := by
    have hq : ((countWriter t e 1).nest e).waiters = t.waiters := countWriter_waiters t e 1
    unfold writers
    rw [hq]
    exact sum_share h.nodup hnest
  have hnum : ((countWriter t e 1).nest e).numWriters =
      t.numWriters + if e.type = .writer then 1 else 0 := countWriter_numWriters t e 1
  have hex := h.exact
  have hiff : Exact ((countWriter t e 1).nest e) ↔ (e.type = .writer → e ∈ t.waiters) := by
    unfold Exact at hex ⊢
    rw [hsum, hnum, hex]
    by_cases hw : e.type = .writer <;> by_cases hq : e ∈ t.waiters <;> simp [hw, hq]
  refine ⟨hiff, fun hin => ⟨?_, ?_, hiff.mpr hin⟩⟩
  · simpa [nest] using h.nodup
  · intro x hw hx
    have hx' : x ∉ t.waiters := by simpa [nest] using hx
    have hne : x ≠ e := by
      rintro rfl
      exact hx' (hin hw)
    rw [hnest, h.idle x hw hx', if_neg hne]

theorem acquire_iff (h : Good t) {deadlock : Bool} {o : Outcome Client}
    (ho : RWToken.acquire t e deadlock = some o) :
    (Exact o.token ↔ Counts t (.acquire e deadlock)) ∧
      (Counts t (.acquire e deadlock) → Good o.token) := by
  have hnot : RWToken.isOwner t e.client = false → Counts t (.acquire e deadlock) :=
    fun hown _ ho => absurd ho (by simp [hown])
  cases acquire_cases ho with
  | granted hq hcase =>
    have hcounts : Counts t (.acquire e deadlock) := by
      rcases hcase with hnil | ⟨hr, -⟩
      · exact hnot (by simp [RWToken.isOwner, owner, hnil])
      · intro hw
        simp [hw] at hr
    exact ⟨⟨fun _ => hcounts, fun _ => (h.joined hq).exact⟩, fun _ => h.joined hq⟩
  | nested hown =>
    obtain ⟨hiff, hgood⟩ := nested_iff (e := e) h
    have hcounts : Counts t (.acquire e deadlock) ↔ (e.type = .writer → e ∈ t.waiters) :=
      ⟨fun hk hw => hk hw hown, fun hk hw _ => hk hw⟩
    exact ⟨hiff.trans hcounts.symm, fun hk => hgood (hcounts.mp hk)⟩
  | refused hb => exact ⟨⟨fun _ => hnot hb.2.1, fun _ => h.exact⟩, fun _ => h⟩
  | queued hq hb =>
    exact ⟨⟨fun _ => hnot hb.2.1, fun _ => (h.joined hq).exact⟩, fun _ => h.joined hq⟩

omit [DecidableEq Client] in
theorem insertAt_perm (q : List (Entry Client)) (e : Entry Client) (position : Int) :
    (insertAt q e position).Perm (e :: q) := by
  unfold insertAt
  split
  · rename_i hq
    rw [hq]
  split
  · exact .refl _
  split
  · exact perm_append_singleton e q
  · apply perm_middle.trans
    rw [take_append_drop]

theorem renew_iff (h : Good t) {position : Int} {o : Outcome Client}
    (ho : RWToken.renew t e position = some o) :
    (Exact o.token ↔ Counts t (.renew e position)) ∧ (Counts t (.renew e position) → Good o.token) := by
  unfold RWToken.renew at ho
  split at ho
  · rename_i hown
    cases ho
    exact ⟨⟨fun _ _ ht => absurd ht (by simp [hown]), fun _ => h.exact⟩, fun _ => h⟩
  rename_i hown
  split at ho
  · rename_i hstay
    cases ho
    refine ⟨⟨fun _ _ _ hlen hnz => ?_, fun _ => h.exact⟩, fun _ => h⟩
    rcases hstay with hone | hzero
    · exact absurd hone hlen
    · exact absurd hzero hnz
  rename_i hmove
  obtain ⟨t', ht', hmap⟩ := map_eq_some_iff.mp ho
  have htoken : o.token = t' := by
    rw [← hmap]
    split <;> rfl
  rw [htoken]
  -- the entry goes to another place
  unfold enqueue at ht'
  split at ht'
  · cases ht'
  rename_i hout
  cases ht'
  have hperm := insertAt_perm (t.waiters.erase e) e position
  have hcounts : Counts t (.renew e position) ↔ (e.type = .writer → e ∈ t.waiters) := by
    rw [not_or] at hmove
    have howns : RWToken.isOwner t e.client = true := by simpa using hown
    exact ⟨fun hk hw => hk hw howns hmove.1 hmove.2, fun hk hw _ _ _ => hk hw⟩
  rw [hcounts]
  have hsum : writers { t.remove e with waiters := insertAt (t.waiters.erase e) e position } =
      share t e + writers (t.remove e) := (hperm.map (share t)).sum_eq
  have hiff : Exact { t.remove e with waiters := insertAt (t.waiters.erase e) e position } ↔
      (e.type = .writer → e ∈ t.waiters) := by
    have hex := h.exact
    unfold Exact at hex ⊢
    rw [hsum]
    change t.numWriters = _ ↔ _
    by_cases hq : e ∈ t.waiters
    · rw [writers_remove hq]
      exact ⟨fun _ _ => hq, fun _ => hex⟩
    · rw [writers_remove_absent hq, hex]
      by_cases hw : e.type = .writer
      · simp only [share, hw, hq, if_true, forall_const, iff_false]
        omega
      · simp [share, hw]
  refine ⟨hiff, fun hin => ⟨?_, fun x hw hx => ?_, hiff.mpr hin⟩⟩
  · apply hperm.nodup_iff.mpr
    exact nodup_cons.mpr ⟨hout, h.nodup.erase e⟩
  · apply h.idle x hw
    intro hmem
    apply hx
    apply hperm.mem_iff.mpr
    by_cases hxe : x = e
    · exact hxe ▸ mem_cons_self
    · exact mem_cons_of_mem _ ((mem_erase_of_ne hxe).mpr hmem)

/-- An entry that leaves the queue, with what it is counted for if that is done. -/
theorem removed_iff (h : Good t) (d : Int) :
    (Exact ((countWriter t e d).remove e) ↔ (e.type = .writer →
        d + (if e ∈ t.waiters then 1 + t.nesting e else 0 : Nat) = 0)) := by
  have hrem : writers ((countWriter t e d).remove e) = writers (t.remove e) := by
    have hshare : share ((countWriter t e d).remove e) = share (t.remove e) :=
      share_congr (countWriter_nesting t e d)
    unfold writers
    rw [hshare]
    simp [Tokens.remove]
  have hnum : ((countWriter t e d).remove e).numWriters =
      t.numWriters + if e.type = .writer then d else 0 := countWriter_numWriters t e d
  have hex := h.exact
  unfold Exact at hex ⊢
  rw [hrem, hnum, hex]
  by_cases hq : e ∈ t.waiters
  · have hs := writers_remove hq
    by_cases hw : e.type = .writer
    · simp only [share, hw, if_true] at hs
      simp only [hw, hq, if_true, forall_const]
      omega
    · simp only [share, hw, if_false] at hs
      simp [hw, ← hs]
  · rw [writers_remove_absent hq]
    by_cases hw : e.type = .writer <;> simp [hw, hq]

theorem Good.removed (h : Good t) (d : Int) (hex : Exact ((countWriter t e d).remove e))
    (hn : e.type = .writer → t.nesting e = 0) : Good ((countWriter t e d).remove e) := by
  refine ⟨by simpa [Tokens.remove] using h.nodup.erase e, fun x hw hx => ?_, hex⟩
  have hsame : ((countWriter t e d).remove e).nesting x = t.nesting x :=
    congrFun (countWriter_nesting t e d) x
  rw [hsame]
  by_cases hxe : x = e
  · rw [hxe]
    exact hn (hxe ▸ hw)
  · apply h.idle x hw
    intro hmem
    apply hx
    simpa [Tokens.remove] using (mem_erase_of_ne hxe).mpr hmem

/-- A nested acquisition that is released, of a writer in the queue or of a reader. -/
theorem Good.unnested (h : Good t) (hn : 0 < t.nesting e) (hin : e.type = .writer → e ∈ t.waiters) :
    Good ((countWriter t e (-1)).unnest e) := by
  have hnest : ∀ x, t.nesting x =
      ((countWriter t e (-1)).unnest e).nesting x + if x = e then 1 else 0 := by
    intro x
    by_cases hx : x = e
    · subst hx
      simp [unnest]
      omega
    · simp [unnest, hx]
  have hq : ((countWriter t e (-1)).unnest e).waiters = t.waiters := countWriter_waiters t e (-1)
  have hnum : ((countWriter t e (-1)).unnest e).numWriters =
      t.numWriters + if e.type = .writer then -1 else 0 := countWriter_numWriters t e (-1)
  have hsum : writers t = writers ((countWriter t e (-1)).unnest e) +
      if e ∈ t.waiters ∧ e.type = .writer then 1 else 0 := by
    unfold writers
    rw [hq]
    exact sum_share h.nodup hnest
  refine ⟨hq ▸ h.nodup, fun x hw hx => ?_, ?_⟩
  · have := hnest x
    have := h.idle x hw (hq ▸ hx)
    omega
  · have hex := h.exact
    unfold Exact at hex ⊢
    rw [hnum, hex, hsum]
    by_cases hw : e.type = .writer
    · simp [hw, hin hw]
    · simp [hw]

theorem release_iff (h : Good t) (e : Entry Client) :
    (Exact (proxyRelease t e).token ↔ Counts t (.release e)) ∧
      (Counts t (.release e) → Good (proxyRelease t e).token) := by
  by_cases hown : RWToken.isOwner t e.client = true
  · have hcounts : Counts t (.release e) ↔ (e.type = .writer → e ∈ t.waiters) := by
      simp [Counts, hown]
    rw [hcounts]
    unfold proxyRelease
    rw [release_eq hown]
    by_cases hn : 0 < t.nesting e
    · simp only [if_pos hn, if_true]
      have hin : e.type = .writer → e ∈ t.waiters := fun hw => by
        by_contra hq
        have := h.idle e hw hq
        omega
      have hgood := h.unnested hn hin
      exact ⟨⟨fun _ => hin, fun _ => hgood.exact⟩, fun _ => hgood⟩
    · simp only [if_neg hn, if_true]
      have hzero : t.nesting e = 0 := by omega
      have hiff : Exact ((countWriter t e (-1)).remove e) ↔ (e.type = .writer → e ∈ t.waiters) := by
        rw [removed_iff h, hzero]
        by_cases hq : e ∈ t.waiters <;> simp [hq]
      exact ⟨hiff, fun hin => h.removed (-1) (hiff.mpr hin) fun _ => hzero⟩
  · have hcounts : Counts t (.release e) ↔ (e.type = .writer → e ∉ t.waiters) := by
      simp [Counts, hown]
    have hrefused : RWToken.release t e = ⟨t, .access, []⟩ := by
      unfold RWToken.release
      rw [if_pos (.inr (by simpa using hown))]
    have hsame : countWriter t e 0 = t := by
      unfold countWriter
      split <;> simp
    have hiff := removed_iff (e := e) h 0
    rw [hsame] at hiff
    have htoken : (proxyRelease t e).token = t.remove e := by simp [proxyRelease, hrefused]
    rw [hcounts, htoken]
    have hq : (Exact (t.remove e)) ↔ (e.type = .writer → e ∉ t.waiters) := by
      rw [hiff]
      by_cases hq : e ∈ t.waiters
      · simp only [hq, if_true, not_true_eq_false]
        constructor
        · intro hz hw
          have := hz hw
          omega
        · exact fun hno hw => absurd (hno hw) not_false
      · simp [hq]
    refine ⟨hq, fun hout => ?_⟩
    have := h.removed 0 (by rw [hsame]; exact hq.mpr hout) fun hw => h.idle e hw (hout hw)
    rwa [hsame] at this

/-! ## Runs -/

/-- **One call**: the count stays right by the calls that are in `Counts`, and by no other. -/
theorem step_iff (h : Good t) (call : ProxyCall Client) {t' : Tokens Client}
    (hstep : step t call = some t') : (Exact t' ↔ Counts t call) ∧ (Counts t call → Good t') := by
  cases call with
  | acquire e deadlock =>
    obtain ⟨o, ho, rfl⟩ := map_eq_some_iff.mp hstep
    exact acquire_iff h ho
  | tryacquire e =>
    obtain ⟨o, ho, rfl⟩ := map_eq_some_iff.mp hstep
    rw [tryacquire_eq] at ho
    obtain ⟨o, hacq, rfl⟩ := map_eq_some_iff.mp ho
    have htoken : (if o.answer = .deadlock then { o with answer := .wouldBlock } else o).token =
        o.token := by split <;> rfl
    rw [htoken]
    exact acquire_iff h hacq
  | renew e position =>
    simp only [step] at hstep
    split at hstep
    · obtain ⟨o, ho, rfl⟩ := map_eq_some_iff.mp hstep
      exact renew_iff h ho
    · cases hstep
  | release e =>
    cases hstep
    exact release_iff h e

theorem Exact.refusedBehindWriter (h : Exact t) : RefusedBehindWriter t := by
  intro e deadlock o hr ho hanswer
  have hb : Blocks t e := by
    cases acquire_cases ho with
    | granted => exact absurd rfl hanswer
    | nested => exact absurd rfl hanswer
    | refused hb => exact hb
    | queued _ hb => exact hb
  by_contra hnone
  apply hb.2.2 hr
  rw [h]
  have hzero : writers t = 0 := by
    apply sum_eq_zero
    intro n hn
    obtain ⟨w, hw, rfl⟩ := mem_map.mp hn
    exact if_neg fun ht => hnone ⟨w, hw, ht⟩
  rw [hzero]
  rfl

/-- Behind a writer, whom an acquisition that is refused finds counted. -/
theorem numWriters_of_waiting (h : Good t) (he : e ∈ t.waiters)
    (hown : ¬RWToken.isOwner t e.client = true) : t.numWriters ≠ 0 := by
  have hwriter : ∃ w ∈ t.waiters, w.type = .writer := by
    by_contra hnone
    have hall : ∀ o ∈ t.waiters, o.type = .reader :=
      fun o ho => reader_of_ne_writer fun hw => hnone ⟨o, ho, hw⟩
    refine hown ((isOwner_iff t e.client).mpr ⟨e, ?_, rfl⟩)
    rw [leading_of_all_readers hall]
    exact he
  obtain ⟨w, hw, ht⟩ := hwriter
  have hpos : 0 < writers t :=
    List.sum_pos_iff_exists_pos_nat.mpr ⟨share t w, mem_map_of_mem hw, by simp [share, ht]⟩
  have hex := h.exact
  unfold Exact at hex
  omega

theorem acquire_isSome (h : Good t) {deadlock : Bool}
    (hq : e ∈ t.waiters → RWToken.isOwner t e.client = true ∨ deadlock = true) :
    (RWToken.acquire t e deadlock).isSome := by
  by_cases hown : e ∈ t.waiters → RWToken.isOwner t e.client = true
  · exact acquire_defined hown deadlock
  · obtain ⟨hmem, hno⟩ := Classical.not_imp.mp hown
    have hnum := numWriters_of_waiting h hmem hno
    have hd := (hq hmem).resolve_left hno
    have hne : t.waiters.head? ≠ none := by simpa using ne_nil_of_mem hmem
    unfold RWToken.acquire
    dsimp only
    rw [isOwner_countWriter, if_neg (by simpa [owner] using hne), if_neg hno, if_neg, if_pos hd]
    · rfl
    · rintro ⟨hr, hzero⟩
      exact hnum (by simpa [hr] using hzero)

theorem defined_of_queues (h : Good t) (call : ProxyCall Client) (hq : Queues t call) :
    ∃ t', step t call = some t' := by
  rw [← isSome_iff_exists]
  cases call with
  | acquire e deadlock =>
    rw [step, isSome_map]
    exact acquire_isSome h hq
  | tryacquire e =>
    rw [step, isSome_map, tryacquire_eq, isSome_map]
    exact acquire_isSome h fun _ => .inr rfl
  | renew e position =>
    have hout : e ∉ (t.remove e).waiters := h.nodup.not_mem_erase
    rw [step, if_pos hq, isSome_map]
    unfold RWToken.renew
    split
    · rfl
    split
    · rfl
    · rw [isSome_map]
      exact enqueue_defined hout position
  | release e => rfl

omit [DecidableEq Client] in
theorem start_good : Good (start : Tokens Client) := ⟨nodup_nil, fun _ _ _ => rfl, rfl⟩

/-- **The count is right** in every state of a run, and the queue stays whole, exactly if every
call is `Kept`. -/
theorem count_iff (calls : List (ProxyCall Client)) :
    AllSteps step Kept start calls ↔
      AllSteps step Queues start calls ∧ (run step start calls).isSome ∧
        ∀ pre t, pre <+: calls → run step start pre = some t → Exact t ∧ RefusedBehindWriter t := by
  have hcongr : AllSteps step (fun t call => Queues t call ∧
      ∀ t', step t call = some t' → Exact t' ∧ RefusedBehindWriter t') start calls ↔
        AllSteps step Kept (start : Tokens Client) calls := by
    refine allSteps_congr (fun t call (h : Good t) => ?_)
      (fun t call t' h hk hstep => (step_iff h call hstep).2 hk.2) start_good
    refine and_congr_right fun hq => ⟨fun hall => ?_, fun hk t' hstep => ?_⟩
    · obtain ⟨t', hstep⟩ := defined_of_queues h call hq
      exact (step_iff h call hstep).1.mp (hall t' hstep).1
    · have hexact := (step_iff h call hstep).1.mpr hk
      exact ⟨hexact, hexact.refusedBehindWriter⟩
  have hstep : ∀ (t : Tokens Client) call, Good t → Kept t call →
      ∃ t', step t call = some t' ∧ Good t' := by
    intro t call h hk
    obtain ⟨t', hstep⟩ := defined_of_queues h call hk.1
    exact ⟨t', hstep, (step_iff h call hstep).2 hk.2⟩
  constructor
  · intro h
    have hboth := hcongr.mpr h
    obtain ⟨t, hrun, -⟩ := run_total_of hstep start_good h
    refine ⟨hboth.mono fun _ _ hc => hc.1, isSome_of_eq_some hrun, reached_iff.mpr ⟨?_, ?_⟩⟩
    · exact ⟨start_good.exact, start_good.exact.refusedBehindWriter⟩
    · exact hboth.mono fun _ _ hc => hc.2
  · rintro ⟨hq, -, hall⟩
    exact hcongr.mp (hq.and (reached_iff.mp hall).2)

/-- The second writer does not wait any longer, and stays counted. -/
theorem give_up_miscounts :
    ¬ ∀ (calls : List (ProxyCall Nat)) (t : Tokens Nat), run step start calls = some t →
      Exact t ∧ RefusedBehindWriter t := by
  intro h
  have hrun : (run step start [.acquire ⟨1, 0, .writer⟩ false, .acquire ⟨2, 0, .writer⟩ false,
      .release (⟨2, 0, .writer⟩ : Entry Nat)]).map (fun t => (t.numWriters, writers t)) =
      some (2, 1) := by decide
  obtain ⟨t, ht, hcounts⟩ := map_eq_some_iff.mp hrun
  obtain ⟨hnum, hwriters⟩ := Prod.mk.inj hcounts
  have hexact := (h _ t ht).1
  unfold Exact at hexact
  omega

end ProxyCall

end Atcd.Token
