import Atcd.Sequences.SequenceRuns
/-!
# Sequences own their buffers and elements

Every buffer and every string has one owner: a sequence with `release_` set, or the caller.
The buffers that are lent to a sequence stay the caller's, with what is in them.

Results:
- `sequences_own`: a run that does not grow beyond a lent buffer of strings, hands over
  buffers with default elements behind the visible ones, and exposes no element that `new`
  has not initialised, is possible, and in the state it reaches every
  sequence shows its list and every buffer and string has exactly one owner;
- `lent_string_moved`: growing beyond the maximum of a lent buffer takes its strings.
-/
namespace Atcd.Sequences
open Atcd.Core List Function Option Equiv Sum State

variable {σ : Type*} {T : Type} {t : Traits T} {h h' : Heap T} {b n : Nat}

/-- Whose a buffer is: a sequence's, or the caller's, each of whose buffers counts for
itself. -/
def bufOwn (s : State σ T) : σ ⊕ Nat → Set Nat
  | .inl a => {b | ∃ x, s.seqs a = some x ∧ b ∈ x.bufs}
  | .inr c => {b | b = c ∧ (s.caller c).isSome = true}

def strOwn (s : State σ T) : σ ⊕ Nat → Set Nat
  | .inl a => {k | ∃ x, s.seqs a = some x ∧ k ∈ x.strs s.heap}
  | .inr c => {k | ∃ e, s.caller c = some e ∧ k ∈ ids e.1}

/-- The invariant. -/
structure Good (t : Traits T) (s : State σ T) : Prop where
  bufs : Ledger s.heap.bufs s.heap.nextBuf (bufOwn s)
  strs : Ledger s.heap.strs s.heap.nextStr (strOwn s)
  shows : ∀ a x, s.seqs a = some x → Shows t s.heap x (s.value a)
  lent : ∀ a x b, s.seqs a = some x → x.release = false → x.buffer = some b →
    (s.caller b).isSome = true
  caller : ∀ b e, s.caller b = some e → s.heap.bufs b = some e.1 ∧ (∀ c ∈ e.1, t.ok c) ∧
    e.1.map (s.heap.look t) = e.2.map some ∧ Distinct e.1

variable {s : State σ T} {a : σ} {x : Seq}

theorem Good.below (hg : Good t s) : Below s.heap := by
  constructor
  · intro b hb
    by_contra hle
    exact hb (hg.bufs.fresh b (by omega))
  · intro k hk
    by_contra hle
    exact hk (hg.strs.fresh k (by omega))

theorem bufOwn_some (hx : s.seqs a = some x) : bufOwn s (.inl a) = x.bufs := by
  ext b
  simp [bufOwn, hx]

theorem strOwn_some (hx : s.seqs a = some x) : strOwn s (.inl a) = x.strs s.heap := by
  ext k
  simp [strOwn, hx]

theorem bufOwn_none (hx : s.seqs a = none) : bufOwn s (.inl a) = ∅ := by
  ext b
  simp [bufOwn, hx]

theorem strOwn_none (hx : s.seqs a = none) : strOwn s (.inl a) = ∅ := by
  ext k
  simp [strOwn, hx]

theorem Good.held (hg : Good t s) (i : σ ⊕ Nat) : Held s.heap (bufOwn s i) (strOwn s i) :=
  ⟨hg.bufs.held_lt i, hg.strs.held_lt i⟩

theorem Good.heldSeq (hg : Good t s) (hx : s.seqs a = some x) :
    Held s.heap x.bufs (x.strs s.heap) := by
  rw [← bufOwn_some hx, ← strOwn_some hx]
  exact hg.held (.inl a)

/-- Every buffer of a sequence is owned, by the sequence or by the caller, and so are the
strings in it. -/
theorem Good.owner (hg : Good t s) {cells : List (Cell T)} (hx : s.seqs a = some x)
    (hb : x.buffer = some b) (hcells : s.heap.bufs b = some cells) :
    ∃ i, (i = .inl a ∨ i = .inr b) ∧ b ∈ bufOwn s i ∧ ids cells ⊆ strOwn s i := by
  by_cases hr : x.release = true
  · refine ⟨.inl a, .inl rfl, ⟨x, hx, hr, hb⟩, ?_⟩
    exact fun k hk => ⟨x, hx, b, cells, hr, hb, hcells, hk⟩
  · have hc := hg.lent a x b hx (Bool.eq_false_iff.mpr hr) hb
    refine ⟨.inr b, .inr rfl, ⟨rfl, hc⟩, ?_⟩
    obtain ⟨e, he⟩ := isSome_iff_exists.mp hc
    have hsame := (hg.caller b e he).1
    cases hcells.symm.trans hsame
    exact fun k hk => ⟨e, he, hk⟩

variable [DecidableEq σ]

omit [DecidableEq σ] in
theorem Good.frame (hg : Good t s) {i : σ ⊕ Nat} {B' S' : Set Nat}
    (hf : Frame s.heap h' (bufOwn s i) B' (strOwn s i) S') :
    (∀ a x, s.seqs a = some x → .inl a ≠ i → (∀ c, x.buffer = some c → .inr c ≠ i) →
      Shows t h' x (s.value a) ∧ x.strs h' = x.strs s.heap) ∧
    ∀ c e, s.caller c = some e → .inr c ≠ i → h'.bufs c = some e.1 ∧
      e.1.map (h'.look t) = e.2.map some := by
  constructor
  · intro a x hx ha hc
    have hbufs : ∀ b cells, x.buffer = some b → s.heap.bufs b = some cells →
        h'.bufs b = s.heap.bufs b ∧ ∀ k ∈ ids cells, h'.strs k = s.heap.strs k := by
      intro b cells hb hcells
      obtain ⟨j, hj, hbj, hkj⟩ := hg.owner hx hb hcells
      have hne : j ≠ i := by
        rcases hj with rfl | rfl
        · exact ha
        · exact hc b hb
      exact ⟨hg.bufs.frame hf.bufs hne hbj, fun k hk => hg.strs.frame hf.strs hne (hkj hk)⟩
    have hlive : ∀ b, x.buffer = some b → ∃ cells, s.heap.bufs b = some cells := by
      intro b hb
      obtain ⟨cells, hcells, -⟩ := (hg.shows a x hx).some b hb
      exact ⟨cells, hcells⟩
    refine ⟨(hg.shows a x hx).congr ?_ ?_, ?_⟩
    · intro b hb
      obtain ⟨cells, hcells⟩ := hlive b hb
      exact (hbufs b cells hb hcells).1
    · exact fun b cells hb hcells => (hbufs b cells hb hcells).2
    · ext k
      constructor
      · rintro ⟨b, cells, hr, hb, hcells, hk⟩
        obtain ⟨co, hco⟩ := hlive b hb
        exact ⟨b, cells, hr, hb, (hbufs b co hb hco).1.symm.trans hcells, hk⟩
      · rintro ⟨b, cells, hr, hb, hcells, hk⟩
        exact ⟨b, cells, hr, hb, (hbufs b cells hb hcells).1.trans hcells, hk⟩
  · intro c e he hc
    obtain ⟨hb, -, hlook, -⟩ := hg.caller c e he
    have hown : c ∈ bufOwn s (.inr c) := ⟨rfl, by rw [he]; rfl⟩
    refine ⟨(hg.bufs.frame hf.bufs hc hown).trans hb, ?_⟩
    rw [← hlook]
    exact map_look_congr fun k hk => hg.strs.frame hf.strs hc ⟨e, he, hk⟩

/-- An operation on one sequence. -/
theorem Good.put (hg : Good t s) {x' : Seq} {v : List (Option T)} (hshows : Shows t h' x' v)
    (hf : Frame s.heap h' (bufOwn s (.inl a)) x'.bufs (strOwn s (.inl a)) (x'.strs h'))
    (hlent : ∀ b, x'.release = false → x'.buffer = some b → (s.caller b).isSome = true) :
    Good t (s.put a h' x' v) := by
  obtain ⟨hothers, hcallers⟩ := hg.frame hf
  have hother : ∀ a₂ x, a₂ ≠ a → s.seqs a₂ = some x →
      Shows t h' x (s.value a₂) ∧ x.strs h' = x.strs s.heap :=
    fun a₂ x hne hx => hothers a₂ x hx (fun he => hne (inl.inj he)) nofun
  have hself : (s.put a h' x' v).seqs a = some x' := update_self ..
  have hseq : ∀ a₂, a₂ ≠ a → (s.put a h' x' v).seqs a₂ = s.seqs a₂ :=
    fun a₂ hne => update_of_ne hne ..
  have hbufs : bufOwn (s.put a h' x' v) = update (bufOwn s) (.inl a) x'.bufs := by
    funext i
    cases i with
    | inl a₂ =>
      by_cases ha : a₂ = a
      · subst ha
        rw [update_self, bufOwn_some hself]
      · rw [update_of_ne (fun he => ha (inl.inj he))]
        ext l
        change (∃ x, (s.put a h' x' v).seqs a₂ = some x ∧ _) ↔ _
        rw [hseq a₂ ha]
        rfl
    | inr c =>
      rfl
  have hstrs : strOwn (s.put a h' x' v) = update (strOwn s) (.inl a) (x'.strs h') := by
    funext i
    cases i with
    | inl a₂ =>
      by_cases ha : a₂ = a
      · subst ha
        rw [update_self, strOwn_some hself]
        rfl
      · rw [update_of_ne (fun he => ha (inl.inj he))]
        ext k
        change (∃ x, (s.put a h' x' v).seqs a₂ = some x ∧ k ∈ x.strs h') ↔ _
        rw [hseq a₂ ha]
        constructor
        · rintro ⟨x, hx, hk⟩
          exact ⟨x, hx, (hother a₂ x ha hx).2 ▸ hk⟩
        · rintro ⟨x, hx, hk⟩
          exact ⟨x, hx, (hother a₂ x ha hx).2.symm ▸ hk⟩
    | inr c =>
      rfl
  constructor
  · rw [hbufs]
    exact hg.bufs.change hf.bufs
  · rw [hstrs]
    exact hg.strs.change hf.strs
  · intro a₂ x hx
    by_cases ha : a₂ = a
    · subst ha
      cases hself.symm.trans hx
      change Shows t h' x' (update s.value a₂ v a₂)
      rw [update_self]
      exact hshows
    · rw [hseq a₂ ha] at hx
      change Shows t h' x (update s.value a v a₂)
      rw [update_of_ne ha]
      exact (hother a₂ x ha hx).1
  · intro a₂ x b hx hr hb
    by_cases ha : a₂ = a
    · subst ha
      cases hself.symm.trans hx
      exact hlent b hr hb
    · rw [hseq a₂ ha] at hx
      exact hg.lent a₂ x b hx hr hb
  · intro b e he
    obtain ⟨-, hok, -, hd⟩ := hg.caller b e he
    obtain ⟨hb, hlook⟩ := hcallers b e he nofun
    exact ⟨hb, hok, hlook, hd⟩

/-! ## Buffers that are lent and handed over -/

omit [DecidableEq σ] in
/-- A caller's buffer as the data of a sequence. -/
theorem Good.lend (hg : Good t s) {maximum length : Nat} {e : List (Cell T) × List (Option T)}
    (he : s.caller b = some e) (hl : length ≤ maximum) (hm : maximum ≤ e.1.length)
    (hroom : maximum ≤ t.room maximum) :
    Shows t s.heap ⟨maximum, length, some b, false⟩ (e.2.take length) := by
  obtain ⟨hb, hok, hlook, -⟩ := hg.caller b e he
  refine ⟨hl, hroom, nofun, ?_⟩
  intro c hc
  cases hc
  refine ⟨e.1, hb, hm, hok, ?_, nofun⟩
  rw [map_take, hlook, map_take]

theorem own_exchange {α : Type*} {own own' : σ ⊕ Nat → Set α} (hl : own' (.inl a) = own (.inr b))
    (hr : own' (.inr b) = own (.inl a)) (hother : ∀ i, i ≠ .inl a → i ≠ .inr b → own' i = own i) :
    own' = own ∘ Equiv.swap (.inl a) (.inr b) := by
  funext i
  by_cases h1 : i = .inl a
  · subst h1
    rw [comp_apply, swap_apply_left, hl]
  · by_cases h2 : i = .inr b
    · subst h2
      rw [comp_apply, swap_apply_right, hr]
    · rw [comp_apply, swap_apply_of_ne_of_ne h1 h2, hother i h1 h2]

omit [DecidableEq σ] in
theorem own_other {s' : State σ T} (hheap : s'.heap = s.heap)
    (hseqs : ∀ a₂, a₂ ≠ a → s'.seqs a₂ = s.seqs a₂)
    (hcaller : ∀ c, c ≠ b → s'.caller c = s.caller c) :
    ∀ i, i ≠ .inl a → i ≠ .inr b → bufOwn s' i = bufOwn s i ∧ strOwn s' i = strOwn s i := by
  intro i h1 h2
  cases i with
  | inl a₂ =>
    have ha : a₂ ≠ a := fun he => h1 (he ▸ rfl)
    simp only [bufOwn, strOwn, hseqs a₂ ha, hheap, and_self]
  | inr c =>
    have hc : c ≠ b := fun he => h2 (he ▸ rfl)
    simp only [bufOwn, strOwn, hcaller c hc, and_self]

/-- A lent buffer becomes the sequence's. -/
theorem Good.take (hg : Good t s) {maximum length : Nat} {e : List (Cell T) × List (Option T)}
    (hx : s.seqs a = some ⟨maximum, length, some b, false⟩) (he : s.caller b = some e)
    (hroom : e.1.length = t.room e.1.length)
    (hvacant : ∀ w ∈ (e.2.take maximum).drop length, w = some t.dflt)
    (hunlent : ∀ a₂, a₂ ≠ a → ∀ x, s.seqs a₂ = some x → x.buffer ≠ some b) :
    Good t ((s.put a s.heap ⟨maximum, length, some b, true⟩ (s.value a)).hand (some b) true) := by
  generalize hs' : (s.put a s.heap ⟨maximum, length, some b, true⟩ (s.value a)).hand (some b)
    true = s'
  have hheap : s'.heap = s.heap := by rw [← hs']; rfl
  have hself : s'.seqs a = some ⟨maximum, length, some b, true⟩ := by
    rw [← hs']
    exact update_self ..
  have hseqs : ∀ a₂, a₂ ≠ a → s'.seqs a₂ = s.seqs a₂ := by
    rw [← hs']
    exact fun a₂ hne => update_of_ne hne ..
  have hvalue : s'.value = s.value := by
    rw [← hs']
    exact update_eq_self ..
  have hnone : s'.caller b = none := by
    rw [← hs']
    exact update_self ..
  have hcaller : ∀ c, c ≠ b → s'.caller c = s.caller c := by
    rw [← hs']
    exact fun c hne => update_of_ne hne ..
  obtain ⟨hb, hok, hlook, hd⟩ := hg.caller b e he
  have hother := own_other (b := b) hheap hseqs hcaller
  have hbufs : bufOwn s' = bufOwn s ∘ swap (.inl a) (.inr b) := by
    refine own_exchange ?_ ?_ fun i h1 h2 => (hother i h1 h2).1
    · rw [bufOwn_some hself, bufs_owned rfl rfl]
      ext l
      simp [bufOwn, he]
    · rw [bufOwn_some hx, bufs_none (.inl rfl)]
      ext l
      simp [bufOwn, hnone]
  have hstrs : strOwn s' = strOwn s ∘ swap (.inl a) (.inr b) := by
    refine own_exchange ?_ ?_ fun i h1 h2 => (hother i h1 h2).2
    · rw [strOwn_some hself, hheap, strs_owned rfl rfl hb]
      ext k
      simp [strOwn, he]
    · rw [strOwn_some hx, strs_none (.inl rfl)]
      ext k
      simp [strOwn, hnone]
  constructor
  · rw [hheap, hbufs]
    exact hg.bufs.reindex _
  · rw [hheap, hstrs]
    exact hg.strs.reindex _
  · intro a₂ x hx₂
    rw [hheap, hvalue]
    by_cases ha : a₂ = a
    · subst ha
      cases hself.symm.trans hx₂
      have hold := hg.shows a₂ _ hx
      refine ⟨hold.length_le, hold.maximum_le, nofun, ?_⟩
      intro c hc
      cases hc
      obtain ⟨cells, hcells, hmax, hokc, hlookc, -⟩ := hold.some b rfl
      cases hb.symm.trans hcells
      refine ⟨e.1, hb, hmax, hok, hlookc, fun _ => ⟨hd, hroom, fun c hc => .inr ?_⟩⟩
      have hmem := mem_map_of_mem (f := s.heap.look t) hc
      rw [map_drop, map_take, hlook, ← map_take, ← map_drop] at hmem
      obtain ⟨w, hw, hwc⟩ := mem_map.mp hmem
      rw [← hwc, hvacant w hw]
    · rw [hseqs a₂ ha] at hx₂
      exact hg.shows a₂ x hx₂
  · intro a₂ x c hx₂ hr hc
    by_cases ha : a₂ = a
    · subst ha
      cases hself.symm.trans hx₂
      cases hr
    · rw [hseqs a₂ ha] at hx₂
      have hne : c ≠ b := by
        rintro rfl
        exact hunlent a₂ ha x hx₂ hc
      rw [hcaller c hne]
      exact hg.lent a₂ x c hx₂ hr hc
  · intro c e' he'
    have hne : c ≠ b := by
      rintro rfl
      rw [hnone] at he'
      cases he'
    rw [hcaller c hne] at he'
    rw [hheap]
    exact hg.caller c e' he'

theorem shows_empty (t : Traits T) (h : Heap T) : Shows t h (Seq.empty t) [] := by
  refine ⟨Nat.zero_le _, ?_, fun _ => ⟨rfl, rfl⟩, nofun⟩
  change t.bound.getD 0 ≤ t.bound.getD (t.bound.getD 0)
  cases t.bound <;> exact Nat.le_refl _

theorem Good.yield {s' : State σ T} (hg : Good t s) (hx : s.seqs a = some x) (hr : x.release = true)
    (hb : x.buffer = some b) (hs' : s' = { s.put a s.heap (Seq.empty t) [] with
      caller := update s.caller b (yielded t s.heap b) }) : Good t s' := by
  have hheap : s'.heap = s.heap := by rw [hs']; rfl
  have hself : s'.seqs a = some (Seq.empty t) := by
    rw [hs']
    exact update_self ..
  have hseqs : ∀ a₂, a₂ ≠ a → s'.seqs a₂ = s.seqs a₂ := by
    rw [hs']
    exact fun a₂ hne => update_of_ne hne ..
  have hcaller : ∀ c, c ≠ b → s'.caller c = s.caller c := by
    rw [hs']
    exact fun c hne => update_of_ne hne ..
  obtain ⟨cells, hcells, -, hok, -, hown⟩ := (hg.shows a x hx).some b hb
  have hnew : s'.caller b = some (cells, cells.map fun c => (s.heap.look t c).getD none) := by
    rw [hs']
    change update s.caller b (yielded t s.heap b) b = _
    rw [update_self, yielded, hcells, map_some]
  have hbx : b ∈ bufOwn s (.inl a) := ⟨x, hx, hr, hb⟩
  have hold : s.caller b = none := by
    by_contra hne
    cases hg.bufs.apart (.inl a) (.inr b) b hbx ⟨rfl, isSome_iff_ne_none.mpr hne⟩
  have hother := own_other (b := b) hheap hseqs hcaller
  have hbufs : bufOwn s' = bufOwn s ∘ swap (.inl a) (.inr b) := by
    refine own_exchange ?_ ?_ fun i h1 h2 => (hother i h1 h2).1
    · rw [bufOwn_some hself, bufs_none (.inl rfl)]
      ext l
      simp [bufOwn, hold]
    · rw [bufOwn_some hx, bufs_owned hr hb]
      ext l
      simp [bufOwn, hnew]
  have hstrs : strOwn s' = strOwn s ∘ swap (.inl a) (.inr b) := by
    refine own_exchange ?_ ?_ fun i h1 h2 => (hother i h1 h2).2
    · rw [strOwn_some hself, strs_none (.inl rfl)]
      ext k
      simp [strOwn, hold]
    · rw [strOwn_some hx, strs_owned hr hb hcells]
      ext k
      simp [strOwn, hnew]
  constructor
  · rw [hheap, hbufs]
    exact hg.bufs.reindex _
  · rw [hheap, hstrs]
    exact hg.strs.reindex _
  · intro a₂ y hy
    rw [hheap]
    by_cases ha : a₂ = a
    · subst ha
      cases hself.symm.trans hy
      have hv : s'.value a₂ = [] := by
        rw [hs']
        exact update_self ..
      rw [hv]
      exact shows_empty t s.heap
    · have hv : s'.value a₂ = s.value a₂ := by
        rw [hs']
        exact update_of_ne ha ..
      rw [hseqs a₂ ha] at hy
      rw [hv]
      exact hg.shows a₂ y hy
  · intro a₂ y c hy hyr hc
    by_cases ha : a₂ = a
    · subst ha
      cases hself.symm.trans hy
      cases hc
    · rw [hseqs a₂ ha] at hy
      have hsome := hg.lent a₂ y c hy hyr hc
      by_cases hcb : c = b
      · rw [hcb, hnew]
        rfl
      · rw [hcaller c hcb]
        exact hsome
  · intro c e he
    rw [hheap]
    by_cases hcb : c = b
    · subst hcb
      cases hnew.symm.trans he
      refine ⟨hcells, hok, ?_, (hown hr).1⟩
      rw [List.map_map]
      refine map_congr_left fun d hd => ?_
      cases d with
      | str k =>
        have hk : k ∈ strOwn s (.inl a) := ⟨x, hx, c, cells, hr, hb, hcells, hd⟩
        obtain ⟨v, hv⟩ := ne_none_iff_exists'.mp (hg.strs.held _ k hk)
        simp [Heap.look, hv]
      | _ => rfl
    · rw [hcaller c hcb] at he
      exact hg.caller c e he

/-- Sequences exchange all they have. -/
theorem Good.swap (hg : Good t s) {a₂ : σ} {y : Seq} (hx : s.seqs a = some x)
    (hy : s.seqs a₂ = some y) :
    Good t ((s.put a s.heap y (s.value a₂)).put a₂ s.heap x (s.value a)) := by
  generalize hs' : (s.put a s.heap y (s.value a₂)).put a₂ s.heap x (s.value a) = s'
  have hheap : s'.heap = s.heap := by rw [← hs']; rfl
  have hcaller : s'.caller = s.caller := by rw [← hs']; rfl
  have hseqs : ∀ c, s'.seqs c = s.seqs (Equiv.swap a a₂ c) ∧
      s'.value c = s.value (Equiv.swap a a₂ c) := by
    intro c
    rw [← hs', swap_apply_def]
    dsimp only [State.put]
    by_cases h2 : c = a₂
    · subst h2
      by_cases h1 : c = a
      · subst h1
        simp [hx]
      · simp [h1, hx]
    · by_cases h1 : c = a
      · subst h1
        simp [h2, hy]
      · simp [h1, h2]
  let e : Equiv.Perm (σ ⊕ Nat) := Equiv.sumCongr (Equiv.swap a a₂) (Equiv.refl Nat)
  have hbufs : bufOwn s' = bufOwn s ∘ e := by
    funext i
    cases i with
    | inl c =>
      change {b | ∃ x, s'.seqs c = some x ∧ b ∈ x.bufs} = _
      rw [(hseqs c).1]
      rfl
    | inr c =>
      change {b | b = c ∧ (s'.caller c).isSome = true} = _
      rw [hcaller]
      rfl
  have hstrs : strOwn s' = strOwn s ∘ e := by
    funext i
    cases i with
    | inl c =>
      change {k | ∃ x, s'.seqs c = some x ∧ k ∈ x.strs s'.heap} = _
      rw [(hseqs c).1, hheap]
      rfl
    | inr c =>
      change {k | ∃ e, s'.caller c = some e ∧ k ∈ ids e.1} = _
      rw [hcaller]
      rfl
  constructor
  · rw [hheap, hbufs]
    exact hg.bufs.reindex _
  · rw [hheap, hstrs]
    exact hg.strs.reindex _
  · intro c z hz
    rw [(hseqs c).1] at hz
    rw [hheap, (hseqs c).2]
    exact hg.shows _ z hz
  · intro c z b hz
    rw [(hseqs c).1] at hz
    rw [hcaller]
    exact hg.lent _ z b hz
  · rw [hcaller, hheap]
    exact hg.caller

theorem Good.destroy (hg : Good t s) (hx : s.seqs a = some x) (hd : t.drops x) :
    ∃ h', x.destroy t s.heap = some h' ∧ Good t { s with
      heap := h'
      seqs := update s.seqs a none } := by
  obtain ⟨h', heq, hf⟩ := destroy_spec (hg.shows a x hx).tidy hd (hg.heldSeq hx) subset_rfl
    subset_rfl
  refine ⟨h', heq, ?_⟩
  have hempty : (Seq.empty t).bufs = ∅ ∧ (Seq.empty t).strs h' = ∅ :=
    ⟨bufs_none (.inl rfl), strs_none (.inl rfl)⟩
  have hput : Good t (s.put a h' (Seq.empty t) []) := by
    refine hg.put (shows_empty t h') ?_ nofun
    rw [bufOwn_some hx, strOwn_some hx, hempty.1, hempty.2]
    rwa [Set.sdiff_self, Set.sdiff_self] at hf
  have hself : (s.put a h' (Seq.empty t) []).seqs a = some (Seq.empty t) := update_self ..
  have hseqs : ∀ c y, update s.seqs a none c = some y →
      c ≠ a ∧ (s.put a h' (Seq.empty t) []).seqs c = some y := by
    intro c y hy
    by_cases hc : c = a
    · subst hc
      rw [update_self] at hy
      cases hy
    · rw [update_of_ne hc] at hy
      exact ⟨hc, (update_of_ne hc ..).trans hy⟩
  have hback : ∀ c y, c ≠ a → (s.put a h' (Seq.empty t) []).seqs c = some y →
      update s.seqs a none c = some y := by
    intro c y hc hy
    rw [update_of_ne hc]
    exact (update_of_ne hc ..).symm.trans hy
  generalize hs' : ({ s with
    heap := h'
    seqs := update s.seqs a none } : State σ T) = s'
  have hbufs : bufOwn s' = bufOwn (s.put a h' (Seq.empty t) []) := by
    subst hs'
    funext i
    cases i with
    | inl c =>
      ext l
      constructor
      · rintro ⟨y, hy, hl⟩
        exact ⟨y, (hseqs c y hy).2, hl⟩
      · rintro ⟨y, hy, hl⟩
        refine ⟨y, hback c y ?_ hy, hl⟩
        rintro rfl
        cases hself.symm.trans hy
        rw [hempty.1] at hl
        exact hl
    | inr c => rfl
  have hstrs : strOwn s' = strOwn (s.put a h' (Seq.empty t) []) := by
    subst hs'
    funext i
    cases i with
    | inl c =>
      ext k
      constructor
      · rintro ⟨y, hy, hk⟩
        exact ⟨y, (hseqs c y hy).2, hk⟩
      · rintro ⟨y, hy, hk⟩
        refine ⟨y, hback c y ?_ hy, hk⟩
        rintro rfl
        cases hself.symm.trans hy
        rw [show (s.put c h' (Seq.empty t) []).heap = h' from rfl, hempty.2] at hk
        exact hk
    | inr c => rfl
  subst hs'
  constructor
  · rw [hbufs]
    exact hput.bufs
  · rw [hstrs]
    exact hput.strs
  · intro c y hy
    obtain ⟨hc, hy'⟩ := hseqs c y hy
    have hshow := hput.shows c y hy'
    have hv : (s.put a h' (Seq.empty t) []).value c = s.value c := update_of_ne hc ..
    rwa [hv] at hshow
  · intro c y b hy
    exact hput.lent c y b (hseqs c y hy).2
  · exact hput.caller

/-! ## Buffers that the caller makes -/

theorem makeCells_spec (t : Traits T) (h : Heap T) (contents : List (Option T)) :
    Adds t h (State.makeCells t h contents).1 (State.makeCells t h contents).2 ∧
      (State.makeCells t h contents).2.map ((State.makeCells t h contents).1.look t) =
        contents.map some := by
  induction contents generalizing h with
  | nil => exact ⟨.nil t h, rfl⟩
  | cons o contents ih =>
    cases o with
    | none =>
      obtain ⟨ha, hv⟩ := ih h
      have hplain : Adds t h h [if t.isString then .null else .unset] := by
        by_cases hs : t.isString = true
        · rw [if_pos hs]
          exact .plain nofun hs
        · rw [if_neg hs]
          exact .plain nofun (Bool.eq_false_iff.mpr hs)
      refine ⟨hplain.append ha, ?_⟩
      refine congrArg₂ cons ?_ hv
      by_cases hs : t.isString = true
      · rw [if_pos hs]
        rfl
      · rw [if_neg hs]
        rfl
    | some v =>
      have hfirst : ∃ h₁ c, (if t.isString then h.newStr v else (h, .val v)) = (h₁, c) ∧
          Adds t h h₁ [c] ∧ h₁.look t c = some (some v) := by
        by_cases hs : t.isString = true
        · rw [if_pos hs]
          exact ⟨_, _, rfl, .newStr hs v, look_newStr v⟩
        · rw [if_neg hs]
          exact ⟨_, _, rfl, .plain nofun (Bool.eq_false_iff.mpr hs), rfl⟩
      obtain ⟨h₁, c, heq, ha, hc⟩ := hfirst
      obtain ⟨hg, hv⟩ := ih h₁
      rw [makeCells, heq]
      refine ⟨ha.append hg, ?_⟩
      change (makeCells t h₁ contents).1.look t c :: _ = _
      rw [hv, map_cons, ← hc]
      refine congrArg (· :: _) (look_congr fun k he => hg.keeps k ?_)
      have hk : k ∈ ids [c] := by
        rw [he, ids_str]
        rfl
      exact (ha.new k hk).2.1

theorem Good.callerBuffer (hg : Good t s) (contents : List (Option T)) : Good t { s with
      heap := ((State.makeCells t s.heap contents).1.newBuf
        (State.makeCells t s.heap contents).2).1
      caller := update s.caller (State.makeCells t s.heap contents).1.nextBuf
        (some ((State.makeCells t s.heap contents).2, contents)) } := by
  obtain ⟨ha, hv⟩ := makeCells_spec t s.heap contents
  generalize makeCells t s.heap contents = r at ha hv
  obtain ⟨h₁, cells⟩ := r
  have hnext := ha.nextBuf
  have hnone : s.caller s.heap.nextBuf = none := by
    by_contra hne
    obtain ⟨e, he⟩ := ne_none_iff_exists'.mp hne
    have hb := (hg.caller _ e he).1
    rw [hg.bufs.fresh _ (Nat.le_refl _)] at hb
    cases hb
  have hbo : bufOwn s (.inr s.heap.nextBuf) = ∅ := by
    ext l
    simp [bufOwn, hnone]
  have hso : strOwn s (.inr s.heap.nextBuf) = ∅ := by
    ext k
    simp [strOwn, hnone]
  have hf₁ := ha.frame (hg.held (.inr s.heap.nextBuf))
  have hf := hf₁.trans (newBuf_frame hf₁.held cells)
  rw [hbo, hso, Set.empty_union, hnext, LawfulSingleton.insert_empty_eq] at hf
  rw [hnext]
  have hfr : Frame s.heap (h₁.newBuf cells).1 (bufOwn s (.inr s.heap.nextBuf)) {s.heap.nextBuf}
      (strOwn s (.inr s.heap.nextBuf)) (ids cells) := by
    rw [hbo, hso]
    exact hf
  obtain ⟨hothers, hcallers⟩ := hg.frame hfr
  have hlive : ∀ a x, s.seqs a = some x → ∀ c, x.buffer = some c →
      (.inr c : σ ⊕ Nat) ≠ .inr s.heap.nextBuf := by
    intro a x hx c hc he
    obtain ⟨co, hco, -⟩ := (hg.shows a x hx).some c hc
    rw [inr.inj he, hg.bufs.fresh _ (Nat.le_refl _)] at hco
    cases hco
  generalize hs' : ({ s with
    heap := (h₁.newBuf cells).1
    caller := update s.caller s.heap.nextBuf (some (cells, contents)) } : State σ T) = s'
  have hself : s'.caller s.heap.nextBuf = some (cells, contents) := by
    rw [← hs']
    exact update_self ..
  have hcall : ∀ c, c ≠ s.heap.nextBuf → s'.caller c = s.caller c := by
    rw [← hs']
    exact fun c hne => update_of_ne hne ..
  have hheap : s'.heap = (h₁.newBuf cells).1 := by rw [← hs']
  have hseqs : s'.seqs = s.seqs := by rw [← hs']
  have hvalue : s'.value = s.value := by rw [← hs']
  have hbufs : bufOwn s' = update (bufOwn s) (.inr s.heap.nextBuf) {s.heap.nextBuf} := by
    funext i
    cases i with
    | inl a =>
      rw [update_of_ne inl_ne_inr]
      ext l
      simp only [bufOwn, hseqs]
    | inr c =>
      by_cases hc : c = s.heap.nextBuf
      · subst hc
        ext l
        simp [bufOwn, hself]
      · rw [update_of_ne (fun he => hc (inr.inj he))]
        simp only [bufOwn, hcall c hc]
  have hstrs : strOwn s' = update (strOwn s) (.inr s.heap.nextBuf) (ids cells) := by
    funext i
    cases i with
    | inl a =>
      ext k
      simp only [strOwn, hseqs, hheap]
      constructor
      · rintro ⟨x, hx, hk⟩
        exact ⟨x, hx, (hothers a x hx inl_ne_inr (hlive a x hx)).2 ▸ hk⟩
      · rintro ⟨x, hx, hk⟩
        exact ⟨x, hx, (hothers a x hx inl_ne_inr (hlive a x hx)).2.symm ▸ hk⟩
    | inr c =>
      by_cases hc : c = s.heap.nextBuf
      · subst hc
        ext k
        simp [strOwn, hself]
      · rw [update_of_ne (fun he => hc (inr.inj he))]
        simp only [strOwn, hcall c hc]
  constructor
  · rw [hbufs, hheap]
    exact hg.bufs.change hfr.bufs
  · rw [hstrs, hheap]
    exact hg.strs.change hfr.strs
  · intro a x hx
    rw [hseqs] at hx
    rw [hheap, hvalue]
    exact (hothers a x hx inl_ne_inr (hlive a x hx)).1
  · intro a x b hx hr hb
    rw [hseqs] at hx
    rw [hcall b fun he => hlive a x hx b hb (congrArg _ he)]
    exact hg.lent a x b hx hr hb
  · intro c e he
    rw [hheap]
    by_cases hc : c = s.heap.nextBuf
    · subst hc
      cases hself.symm.trans he
      refine ⟨?_, ha.ok, hv, ha.distinct⟩
      have hput : (h₁.newBuf cells).1.bufs h₁.nextBuf = some cells := Store.put_self
      rwa [hnext] at hput
    · rw [hcall c hc] at he
      obtain ⟨-, hok, -, hd⟩ := hg.caller c e he
      obtain ⟨hb, hlook⟩ := hcallers c e he fun h => hc (inr.inj h)
      exact ⟨hb, hok, hlook, hd⟩

/-! ## Runs -/

/-- What is promised of a caller's buffer as the data of a sequence: as many elements as
the maximum, and of one that is handed over that the allocation traits have made it and
that it is lent to no other sequence. -/
def Data (t : Traits T) (s : State σ T) (a : σ) (maximum length : Nat) (data : Option Nat)
    (release : Bool) : Prop :=
  length ≤ maximum ∧ maximum ≤ t.room maximum ∧ (data = none → length = 0) ∧
    ∀ b ∈ data, ∃ e ∈ s.caller b, maximum ≤ e.1.length ∧ (release = true →
      e.1.length = t.room e.1.length ∧ ∀ a₂, a₂ ≠ a → ∀ x ∈ s.seqs a₂, x.buffer ≠ some b)

/-- What the callers promise. Names are those of sequences that exist; the maximum of a
bounded sequence is at most the bound, which the wrappers of bounded sequences check. -/
def Legal (t : Traits T) (s : State σ T) : Act σ T → Prop
  | .callerBuffer _ => True
  | .construct a => s.seqs a = none
  | .constructMaximum a maximum => s.seqs a = none ∧ maximum ≤ t.room maximum
  | .constructWith a maximum length data release =>
    s.seqs a = none ∧ Data t s a maximum length data release
  | .constructCopy a b => s.seqs a = none ∧ (s.seqs b).isSome = true
  | .destroy a => (s.seqs a).isSome = true
  | .assign a b => (s.seqs a).isSome = true ∧ (s.seqs b).isSome = true
  | .length a length => (s.seqs a).isSome = true ∧ length ≤ t.room length
  | .replace a maximum length data release =>
    (s.seqs a).isSome = true ∧ Data t s a maximum length data release
  | .swap a b => (s.seqs a).isSome = true ∧ (s.seqs b).isSome = true
  | .getBuffer a _ => (s.seqs a).isSome = true

/-- What copying needs: a buffer that the allocation does not refuse, and strings whose
lengths fit. -/
def CopyOk (t : Traits T) (y : Seq) (v : List (Option T)) : Prop :=
  (y.buffer ≠ none → y.maximum ≠ 0 → t.refuses y.maximum = false) ∧ ∀ w ∈ v, t.fits w

/-- A buffer that is handed over has default elements behind the visible ones. -/
def Vacant (t : Traits T) (s : State σ T) (maximum length : Nat) (data : Option Nat)
    (release : Bool) : Prop :=
  release = true → ∀ b ∈ data, ∀ e ∈ s.caller b, ∀ w ∈ (e.2.take maximum).drop length,
    w = some t.dflt

/-- The condition on the steps. -/
def Sound (t : Traits T) (s : State σ T) : Act σ T → Prop
  | .constructCopy _ b => ∀ y ∈ s.seqs b, CopyOk t y (s.value b)
  | .destroy a => ∀ x ∈ s.seqs a, t.drops x
  | .assign a b => (∀ x ∈ s.seqs a, t.drops x) ∧ ∀ y ∈ s.seqs b, CopyOk t y (s.value b)
  | .length a length => ∀ x ∈ s.seqs a, LengthOk t s.heap x length
  | .constructWith _ maximum length data release => Vacant t s maximum length data release
  | .replace a maximum length data release =>
    (∀ x ∈ s.seqs a, t.drops x) ∧ Vacant t s maximum length data release
  | _ => True

/-- The data of a caller, in the place of a sequence that owns nothing any more. -/
theorem Good.give (hg : Good t s) {maximum length : Nat} {data : Option Nat} {release : Bool}
    (hdata : Data t s a maximum length data release) (hvacant : Vacant t s maximum length data release)
    (hf : Frame s.heap h' (bufOwn s (.inl a)) ∅ (strOwn s (.inl a)) ∅) :
    Good t ((s.put a h' ⟨maximum, length, data, release⟩ (s.given data length)).hand data
      release) := by
  obtain ⟨hl, hroom, hnone, hsome⟩ := hdata
  cases data with
  | none =>
    rw [hnone rfl]
    refine hg.put ⟨Nat.zero_le _, hroom, fun _ => ⟨rfl, rfl⟩, nofun⟩ ?_ nofun
    exact hf.congr (bufs_none (.inr rfl)).symm (strs_none (.inr rfl)).symm
  | some b =>
    obtain ⟨e, he, hm, hgive⟩ := hsome b rfl
    have hlent : Good t (s.put a h' ⟨maximum, length, some b, false⟩ (s.given (some b) length)) := by
      have hv : s.given (some b) length = e.2.take length := by
        rw [given, bind_some, he]
      rw [hv]
      refine hg.put ?_ (hf.congr (bufs_none (.inl rfl)).symm (strs_none (.inl rfl)).symm) ?_
      · refine (hg.lend he hl hm hroom).congr ?_ ?_
        · intro c hc
          cases hc
          rw [((hg.frame hf).2 b e he inr_ne_inl).1, (hg.caller b e he).1]
        · intro c cells hc hcells k hk
          cases hc
          cases hcells.symm.trans (hg.caller b e he).1
          exact hg.strs.frame hf.strs inr_ne_inl ⟨e, he, hk⟩
      · intro c _ hc
        cases hc
        rw [he]
        rfl
    cases release with
    | false => exact hlent
    | true =>
      obtain ⟨hfull, hunlent⟩ := hgive rfl
      have hself : (s.put a h' ⟨maximum, length, some b, false⟩ (s.given (some b) length)).seqs a =
          some ⟨maximum, length, some b, false⟩ := update_self ..
      have htake := hlent.take hself he hfull (hvacant rfl b rfl e he) (by
        intro a₂ ha x hx
        refine hunlent a₂ ha x ?_
        exact (update_of_ne ha ..).symm.trans hx)
      dsimp only [State.put] at htake ⊢
      rwa [update_idem, update_idem, update_self] at htake

/-- An operation that leaves no lent buffer. -/
theorem Good.changes (hg : Good t s) {x' : Seq} {v : List (Option T)} (hx : s.seqs a = some x)
    (hc : Changes t s.heap h' x x' v) (hx' : x'.release = true ∨ x'.buffer = none) :
    Good t (s.put a h' x' v) := by
  refine hg.put hc.shows ?_ ?_
  · rw [bufOwn_some hx, strOwn_some hx]
    exact hc.frame
  · intro b hrel hb
    rcases hx' with hx' | hx'
    · rw [hrel] at hx'
      cases hx'
    · rw [hb] at hx'
      cases hx'

theorem Good.length (hg : Good t s) (hx : s.seqs a = some x) (hroom : n ≤ t.room n)
    (hok : LengthOk t s.heap x n) : ∃ h' x', x.setLength t s.heap n = some (h', x') ∧
      Good t (s.put a h' x' (s.resized t a x n)) := by
  unfold resized
  by_cases hlent : x.release = false ∧ x.buffer.isSome = true ∧ n ≤ x.maximum
  · rw [if_pos hlent]
    obtain ⟨hr, hbuf, hn⟩ := hlent
    obtain ⟨b, hb⟩ := isSome_iff_exists.mp hbuf
    obtain ⟨e, he⟩ := isSome_iff_exists.mp (hg.lent a x b hx hr hb)
    obtain ⟨hcells, -, hlook, -⟩ := hg.caller b e he
    have hv : s.given x.buffer n = e.2.take n := by
      rw [given, hb, bind_some, he]
    have hc := relength_spec (hg.shows a x hx) (hg.heldSeq hx) hb hn
      (fun ht => absurd (hr.symm.trans ht) nofun) (w := e.2.take n) (by
      intro cells hcells'
      cases hcells.symm.trans hcells'
      rw [map_take, hlook, map_take])
    rw [hv]
    refine ⟨s.heap, { x with length := n }, setLength_lent hr hb hn, hg.put hc.shows ?_ ?_⟩
    · rw [bufOwn_some hx, strOwn_some hx]
      exact hc.frame
    · intro l _ hl
      exact hg.lent a x l hx hr hl
  · rw [if_neg hlent]
    obtain ⟨h', x', heq, hr', hc⟩ := setLength_own hg.below (hg.shows a x hx) (hg.heldSeq hx)
      hroom hok hlent
    exact ⟨h', x', heq, hg.changes hx hc (.inl hr')⟩

theorem Good.getBuffer (hg : Good t s) (hx : s.seqs a = some x) (orphan : Bool) :
    Good t (if orphan = true ∧ x.release = true then
      { s.put a (x.getBuffer t s.heap orphan).1 (x.getBuffer t s.heap orphan).2.1 [] with
        caller := match (x.getBuffer t s.heap orphan).2.2 with
          | some b => update s.caller b (yielded t (x.getBuffer t s.heap orphan).1 b)
          | none => s.caller }
      else s.put a (x.getBuffer t s.heap orphan).1 (x.getBuffer t s.heap orphan).2.1
        (s.value a)) := by
  have hsame : Good t (s.put a s.heap x (s.value a)) := by
    refine hg.put (hg.shows a x hx) ?_ (fun b => hg.lent a x b hx)
    rw [bufOwn_some hx, strOwn_some hx]
    exact (hg.heldSeq hx).refl
  by_cases hyield : orphan = true ∧ x.release = true
  · rw [if_pos hyield]
    obtain ⟨rfl, hr⟩ := hyield
    unfold Seq.getBuffer
    rw [if_neg (by rw [hr]; rintro ⟨-, hf⟩; cases hf)]
    cases hbuf : x.buffer with
    | some b =>
      refine hg.yield hx hr hbuf ?_
      simp only [Bool.true_eq_false, if_false, hbuf]
    | none =>
      obtain ⟨hl, hv⟩ := (hg.shows a x hx).none hbuf
      have hshow := hg.shows a x hx
      rw [hv] at hshow
      have hc := first_spec (n := 0) hshow hbuf (hg.heldSeq hx) (Nat.zero_le _) (.inl rfl)
      have hput := hg.changes hx hc (.inl rfl)
      simp only [Bool.true_eq_false, if_false]
      generalize t.allocbuf s.heap x.maximum = r at hc hput
      obtain ⟨h', o⟩ := r
      cases o with
      | none =>
        refine hg.put (shows_empty t h') ?_ nofun
        rw [bufOwn_some hx, strOwn_some hx]
        refine hc.frame.congr ?_ ?_
        · rw [bufs_none (.inr rfl), bufs_none (.inl rfl)]
        · rw [strs_none (.inr rfl), strs_none (.inl rfl)]
      | some b =>
        refine hput.yield (b := b) (x := ⟨x.maximum, 0, some b, true⟩) (update_self ..)
          rfl rfl ?_
        dsimp only [State.put]
        rw [update_idem, update_idem]
  · rw [if_neg hyield]
    unfold Seq.getBuffer
    by_cases hlent : orphan = true ∧ x.release = false
    · rw [if_pos hlent]
      exact hsame
    · rw [if_neg hlent]
      have ho : orphan = false := by
        by_contra ho
        have ho' := Bool.eq_true_of_not_eq_false ho
        by_cases hr : x.release = true
        · exact hyield ⟨ho', hr⟩
        · exact hlent ⟨ho', Bool.eq_false_iff.mpr hr⟩
      subst ho
      cases hbuf : x.buffer with
      | some b => exact hsame
      | none =>
        obtain ⟨hl, hv⟩ := (hg.shows a x hx).none hbuf
        have hshow := hg.shows a x hx
        rw [hv] at hshow
        have hc := first_spec (n := 0) hshow hbuf (hg.heldSeq hx) (Nat.zero_le _) (.inl rfl)
        have hput := hg.changes hx hc (.inl rfl)
        rw [hv]
        rw [hl, Bool.not_false, Bool.or_true]
        exact hput

/-- **Step lemma.** -/
theorem good_step [DecidableEq T] (hg : Good t s) {act : Act σ T} (hl : Legal t s act)
    (hs : Sound t s act) : ∃ s', step t s act = some s' ∧ Good t s' := by
  have hnew : ∀ a, s.seqs a = none →
      Frame s.heap s.heap (bufOwn s (.inl a)) ∅ (strOwn s (.inl a)) ∅ := by
    intro a ha
    have hf := (hg.held (.inl a)).refl
    rw [bufOwn_none ha, strOwn_none ha] at hf ⊢
    exact hf
  cases act with
  | callerBuffer contents => exact ⟨_, rfl, hg.callerBuffer contents⟩
  | construct a =>
    refine ⟨_, if_pos hl, hg.put (shows_empty t s.heap) ?_ nofun⟩
    exact (hnew a hl).congr (bufs_none (.inl rfl)).symm (strs_none (.inl rfl)).symm
  | constructMaximum a maximum =>
    refine ⟨_, if_pos hl.1, ?_⟩
    have hheld := (hg.held (.inl a))
    rw [bufOwn_none hl.1, strOwn_none hl.1] at hheld
    have hfirst := first_spec (x := ⟨maximum, 0, none, false⟩) (n := 0)
      ⟨Nat.zero_le _, hl.2, fun _ => ⟨rfl, rfl⟩, nofun⟩ rfl (by
        rw [bufs_none (.inl rfl), strs_none (.inl rfl)]
        exact hheld) (Nat.zero_le _) (.inl rfl)
    have hframe := hfirst.frame
    rw [bufs_none (x := ⟨maximum, 0, none, false⟩) (.inl rfl),
      strs_none (x := ⟨maximum, 0, none, false⟩) (.inl rfl)] at hframe
    refine hg.put hfirst.shows ?_ nofun
    rw [bufOwn_none hl.1, strOwn_none hl.1]
    exact hframe
  | constructWith a maximum length data release =>
    exact ⟨_, if_pos hl.1, hg.give hl.2 hs (hnew a hl.1)⟩
  | constructCopy a a₂ =>
    obtain ⟨y, hy⟩ := isSome_iff_exists.mp hl.2
    obtain ⟨hr, hfit⟩ := hs y hy
    obtain ⟨h', x, heq, hx, hm⟩ := copy_spec hg.below (hg.shows a₂ y hy) hr hfit
    refine ⟨s.put a h' x (s.value a₂), ?_, hg.put hm.shows ?_ ?_⟩
    · rw [step, hy, bind_some, if_pos hl.1, heq, map_some]
    · have hf := hm.frame _ _ (hg.held (.inl a))
      rw [bufOwn_none hl.1, strOwn_none hl.1, Set.empty_union, Set.empty_union] at hf
      rw [bufOwn_none hl.1, strOwn_none hl.1]
      exact hf
    · intro b hrel hb
      rcases hx with hx | hx
      · rw [hrel] at hx
        cases hx
      · rw [hb] at hx
        cases hx
  | destroy a =>
    obtain ⟨x, hx⟩ := isSome_iff_exists.mp hl
    obtain ⟨h', heq, hgood⟩ := hg.destroy hx (hs x hx)
    refine ⟨_, ?_, hgood⟩
    rw [step, hx, bind_some, heq, map_some]
  | assign a a₂ =>
    obtain ⟨x, hx⟩ := isSome_iff_exists.mp hl.1
    obtain ⟨y, hy⟩ := isSome_iff_exists.mp hl.2
    obtain ⟨hr, hfit⟩ := hs.2 y hy
    obtain ⟨h', x', heq, hx', hc⟩ := assign_spec hg.below (hg.shows a x hx).tidy
      (hg.heldSeq hx) (hs.1 x hx) (hg.shows a₂ y hy) hr hfit
    refine ⟨_, ?_, hg.changes hx hc hx'⟩
    rw [step, hx, bind_some, hy, bind_some, heq, map_some]
  | length a n =>
    obtain ⟨x, hx⟩ := isSome_iff_exists.mp hl.1
    obtain ⟨h', x', heq, hgood⟩ := hg.length hx hl.2 (hs x hx)
    refine ⟨_, ?_, hgood⟩
    rw [step, hx, bind_some, heq, map_some]
  | replace a maximum length data release =>
    obtain ⟨x, hx⟩ := isSome_iff_exists.mp hl.1
    obtain ⟨h', heq, hf⟩ := destroy_spec (hg.shows a x hx).tidy (hs.1 x hx) (hg.heldSeq hx)
      subset_rfl subset_rfl
    rw [Set.sdiff_self, Set.sdiff_self] at hf
    rw [← bufOwn_some hx, ← strOwn_some hx] at hf
    refine ⟨_, ?_, hg.give hl.2 hs.2 hf⟩
    rw [step, hx, bind_some, Seq.replace, heq]
    rfl
  | swap a a₂ =>
    obtain ⟨x, hx⟩ := isSome_iff_exists.mp hl.1
    obtain ⟨y, hy⟩ := isSome_iff_exists.mp hl.2
    refine ⟨_, ?_, hg.swap hx hy⟩
    rw [step, hx, bind_some, hy, bind_some]
  | getBuffer a orphan =>
    obtain ⟨x, hx⟩ := isSome_iff_exists.mp hl
    refine ⟨_, ?_, hg.getBuffer hx orphan⟩
    rw [step, hx, bind_some]
    by_cases hc : orphan = true ∧ x.release = true
    · rw [if_pos hc]
      exact if_pos hc
    · rw [if_neg hc]
      exact if_neg hc

omit [DecidableEq σ] in
theorem good_init (t : Traits T) : Good t (init : State σ T) where
  bufs := by
    refine .empty (fun _ => rfl) fun i => ?_
    cases i with
    | inl a => exact bufOwn_none rfl
    | inr c =>
      ext b
      simp [bufOwn, init]
  strs := by
    refine .empty (fun _ => rfl) fun i => ?_
    cases i with
    | inl a => exact strOwn_none rfl
    | inr c =>
      ext k
      simp [strOwn, init]
  shows _ _ h := by cases h
  lent _ _ _ h := by cases h
  caller _ _ h := by cases h

def Seq.visible (t : Traits T) (h : Heap T) (x : Seq) : List (Option (Option T)) :=
  (((x.buffer.bind h.bufs).getD []).take x.length).map (h.look t)

/-- Sequences show their lists, the caller's buffers are as the caller made them, also
those that sequences use, and buffers and strings have one owner each. -/
structure Owned (t : Traits T) (s : State σ T) : Prop where
  visible : ∀ a x, s.seqs a = some x → x.visible t s.heap = (s.value a).map some
  caller : ∀ b e, s.caller b = some e →
    s.heap.bufs b = some e.1 ∧ e.1.map (s.heap.look t) = e.2.map some
  lent : ∀ a x b, s.seqs a = some x → x.release = false → x.buffer = some b →
    (s.caller b).isSome = true
  buffer : ∀ b, s.heap.bufs b ≠ none ↔ ∃! i, b ∈ bufOwn s i
  string : ∀ k, s.heap.strs k ≠ none ↔ ∃! i, k ∈ strOwn s i

omit [DecidableEq σ] in
theorem Good.owned (hg : Good t s) : Owned t s where
  visible a x hx := by
    have hs := hg.shows a x hx
    cases hb : x.buffer with
    | none =>
      rw [(hs.none hb).2, Seq.visible, hb, bind_none, getD_none, take_nil]
      rfl
    | some b =>
      obtain ⟨cells, hcells, -, -, hv, -⟩ := hs.some b hb
      rw [Seq.visible, hb, bind_some, hcells, getD_some, hv]
  caller b e he := by
    obtain ⟨hb, -, hlook, -⟩ := hg.caller b e he
    exact ⟨hb, hlook⟩
  lent := hg.lent
  buffer _ := hg.bufs.live_iff
  string _ := hg.strs.live_iff

/-- A run that grows no sequence beyond a lent buffer of strings, hands over buffers with
default elements behind the visible ones, exposes only initialised elements and drops,
copies and allocates what the traits can is possible, and keeps what
belongs to whom. -/
theorem sequences_own [DecidableEq T] (t : Traits T) (acts : List (Act σ T))
    (hacts : AllSteps (step t) (fun s act => Legal t s act ∧ Sound t s act) init acts) :
    ∃ s, run (step t) init acts = some s ∧ Owned t s := by
  have hstep : ∀ (s : State σ T) (act : Act σ T), Good t s → Legal t s act ∧ Sound t s act →
      ∃ s', step t s act = some s' ∧ Good t s' :=
    fun s act hg hl => good_step hg hl.1 hl.2
  obtain ⟨s, hrun, hg⟩ := run_total_of hstep (good_init t) hacts
  exact ⟨s, hrun, hg.owned⟩

instance (x : Seq) : Decidable (t.drops x) :=
  inferInstanceAs (Decidable (_ → _))

instance (v : Option T) : Decidable (t.fits v) :=
  inferInstanceAs (Decidable (∀ w ∈ v, _ → _))

instance [DecidableEq T] (x : Seq) : Decidable (LengthOk t h x n) :=
  inferInstanceAs (Decidable (if n ≤ x.maximum then _ ∧ _ else _ ∧ _))

instance (y : Seq) (v : List (Option T)) : Decidable (CopyOk t y v) :=
  inferInstanceAs (Decidable (_ ∧ _))

instance [Fintype σ] (s : State σ T) (a : σ) (maximum length : Nat) (data : Option Nat)
    (release : Bool) : Decidable (Data t s a maximum length data release) :=
  inferInstanceAs (Decidable (_ ∧ _))

instance [Fintype σ] (s : State σ T) : ∀ act, Decidable (Legal t s act)
  | .callerBuffer _ => inferInstanceAs (Decidable True)
  | .construct _ => inferInstanceAs (Decidable (_ = _))
  | .constructMaximum .. | .constructWith .. | .constructCopy .. | .assign .. | .length ..
  | .replace .. | .swap .. => inferInstanceAs (Decidable (_ ∧ _))
  | .destroy _ | .getBuffer .. => inferInstanceAs (Decidable (_ = true))

instance [DecidableEq T] (s : State σ T) (maximum length : Nat) (data : Option Nat)
    (release : Bool) : Decidable (Vacant t s maximum length data release) :=
  inferInstanceAs (Decidable (_ → _))

instance [DecidableEq T] (s : State σ T) : ∀ act, Decidable (Sound t s act)
  | .constructCopy _ b => inferInstanceAs (Decidable (∀ y ∈ s.seqs b, _))
  | .assign .. | .replace .. => inferInstanceAs (Decidable (_ ∧ _))
  | .destroy a | .length a _ => inferInstanceAs (Decidable (∀ x ∈ s.seqs a, _))
  | .constructWith .. => inferInstanceAs (Decidable (Vacant ..))
  | .callerBuffer _ | .construct _ | .constructMaximum .. | .swap .. | .getBuffer .. =>
    inferInstanceAs (Decidable True)

/-- Unbounded sequences of strings, which are numbers and their own lengths. -/
def stringSequences : Traits Nat := ⟨true, 0, id, false, true, none⟩

/-- A lent buffer is shrunk and copied, and the copy grows, shrinks and grows again, is exchanged
and yields its buffer. Another buffer is handed over. -/
def lendCopyGrow : List (Act Bool Nat) :=
  [.callerBuffer [some 5, some 6], .constructWith false 2 2 (some 0) false, .length false 1,
    .constructCopy true false, .length true 4, .length true 2, .length true 3, .swap true false,
    .getBuffer false true, .assign false true, .destroy true, .callerBuffer [some 7, some 0],
    .constructWith true 2 1 (some 4) true, .length true 2]

theorem sequences_own_lendCopyGrow :
    ∃ s, run (step stringSequences) init lendCopyGrow = some s ∧ Owned stringSequences s :=
  sequences_own stringSequences lendCopyGrow (by decide +kernel)

/-- The lent buffer has two elements, and the sequence gets a third. -/
def growLent : List (Act Bool Nat) :=
  [.callerBuffer [some 5, some 6], .constructWith false 2 2 (some 0) false, .length false 3]

/-- The strings of the caller's buffer go to the new buffer. -/
theorem lent_string_moved : ¬∀ (acts : List (Act Bool Nat)) (s : State Bool Nat),
    AllSteps (step stringSequences) (Legal stringSequences) init acts →
      run (step stringSequences) init acts = some s → Owned stringSequences s := by
  intro hall
  have hex : ∃ s, run (step stringSequences) init growLent = some s ∧
      s.caller 0 = some ([.str 0, .str 1], [some 5, some 6]) ∧
      s.heap.bufs 0 = some [.null, .null] := ⟨_, rfl, rfl, rfl⟩
  obtain ⟨s, hrun, hcaller, hbuf⟩ := hex
  have hown := hall _ s (by decide +kernel) hrun
  have hsame := (hown.caller 0 _ hcaller).1
  rw [hbuf] at hsame
  cases hsame

end Atcd.Sequences
