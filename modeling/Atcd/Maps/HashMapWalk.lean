import Atcd.Maps.HashMapRuns
/-!
# Walking over the hash map

A position counts the entries in the order of the buckets; -1 is before the first one and the
number of entries behind the last. Both ends have an iterator of their own, and an iterator at
an entry has the entry's bucket as its index.

Results:
- `Place.forward`, `Place.reverse`: an iterator steps to the next or the previous position;
- `hash_map_keeps`: what holds after every run, with the calls whose results are those of a
  finite map;
- `rebind_entry_unset`: a `rebind` that binds a new key leaves the caller's pointer as it was.
-/
namespace Atcd.Maps
open Atcd.Core List HashMap Int

variable {K V : Type*} {c : Keys K} {s : HashMap c V} {L : Nat → List Nat} {i : Nat}

theorem order_succ (L : Nat → List Nat) (i : Nat) : order (i + 1) L = order i L ++ L i := by
  unfold order
  rw [range_succ, flatMap_append, flatMap_singleton]

theorem order_split {total : Nat} (L : Nat → List Nat) (hi : i < total) :
    ∃ rest, order total L = order i L ++ L i ++ rest := by
  induction total with
  | zero => cases hi
  | succ total ih =>
    rw [order_succ]
    rcases Nat.lt_succ_iff_lt_or_eq.mp hi with hlt | rfl
    · obtain ⟨rest, hrest⟩ := ih hlt
      rw [hrest]
      exact ⟨rest ++ L total, append_assoc ..⟩
    · exact ⟨[], (append_nil _).symm⟩

theorem end_eq (s : HashMap c V) : s.end_ = ⟨s.total_size, .bucket (s.total_size - 1)⟩ := rfl

/-- Where an iterator is. -/
inductive Place (s : HashMap c V) (L : Nat → List Nat) : Int → Iter → Prop
  | rend : Place s L (-1) s.rend
  | end_ : Place s L (order s.total_size L).length s.end_
  | entry {i a : Nat} {l₁ l₂ : List Nat} (hi : i < s.total_size) (hL : L i = l₁ ++ a :: l₂) :
    Place s L ((order i L).length + l₁.length) ⟨i, .entry a⟩

namespace Place

variable {p : Int} {q : Ptr} {it : Iter} {l₁ l₂ : List Nat}

theorem at_ (h : Place s L p it) : s.At (order s.total_size L) p it := by
  cases h with
  | rend => exact .inl ⟨rfl, rfl⟩
  | end_ => exact .inr (.inl ⟨rfl, rfl⟩)
  | @entry i a l₁ l₂ hi hL =>
    obtain ⟨rest, hrest⟩ := order_split L hi
    refine .inr (.inr ⟨a, by omega, ?_, if_pos ⟨ofNat_lt.mpr hi, natCast_nonneg i, nofun⟩⟩)
    rw [hrest, hL, ← natCast_add, toNat_natCast, append_assoc]
    simp

/-! ## Forward -/

theorem of_head? (l₁ : List Nat) (hi : i < s.total_size) (hL : L i = l₁ ++ l₂)
    (hq : (l₂.map Ptr.entry ++ [Ptr.bucket i]).head? = some q) : (q = .bucket i ∧ L i = l₁) ∨
      q ≠ .bucket i ∧ Place s L ((order i L).length + l₁.length) ⟨i, q⟩ := by
  cases l₂ with
  | nil =>
    cases hq
    exact .inl ⟨rfl, hL.trans (append_nil l₁)⟩
  | cons a l₂ =>
    cases hq
    exact .inr ⟨nofun, .entry hi hL⟩

theorem scanForward (h : Shape s L) {fuel : Nat} (hi : i < s.total_size)
    (hfuel : s.total_size ≤ i + fuel) :
    Place s L (order (i + 1) L).length (s.scanForward fuel ⟨i, .bucket i⟩) := by
  induction fuel generalizing i with
  | zero => omega
  | succ fuel ih =>
    unfold scanForward
    have hcast : (i : Int) + 1 = ((i + 1 : Nat) : Int) := rfl
    dsimp only
    rw [hcast, toNat_natCast]
    by_cases hlt : i + 1 < s.total_size
    · rw [if_pos (ofNat_lt.mpr hlt)]
      rcases of_head? [] hlt rfl (h.ring _ hlt).head? with ⟨hq, hnil⟩ | ⟨hq, hplace⟩
      · rw [if_neg (not_not.mpr hq), hq]
        have hnext := ih hlt (by omega)
        rwa [order_succ, hnil, append_nil] at hnext
      · rw [if_pos hq]
        exact hplace
    · have heq : s.total_size = i + 1 := by omega
      rw [if_neg (by omega), ← heq]
      have hend : (⟨(s.total_size : Int), .bucket i⟩ : Iter) = s.end_ := by
        rw [end_eq, heq, Nat.add_sub_cancel]
      exact hend ▸ .end_

/-- Forward from within a bucket. -/
theorem next (l₁ : List Nat) (h : Shape s L) (hi : i < s.total_size) (hL : L i = l₁ ++ l₂)
    (hq : (l₂.map Ptr.entry ++ [Ptr.bucket i]).head? = some q) :
    Place s L ((order i L).length + l₁.length)
      (if q = .bucket i then s.scanForward s.total_size ⟨i, q⟩ else ⟨i, q⟩) := by
  rcases of_head? l₁ hi hL hq with ⟨rfl, hall⟩ | ⟨hne, hplace⟩
  · rw [if_pos rfl]
    have hscan := scanForward h hi (Nat.le_add_left s.total_size i)
    rwa [order_succ, hall, length_append, natCast_add] at hscan
  · rw [if_neg hne]
    exact hplace

theorem forward_eq (hi : i < s.total_size) (q : Ptr) : s.forward ⟨i, q⟩ =
      if s.links.next q = .bucket i then s.scanForward s.total_size ⟨i, s.links.next q⟩
      else ⟨i, s.links.next q⟩ := by
  have hindex : ¬((i : Int) = -1) := by omega
  unfold forward
  rw [if_neg hindex, if_neg (by dsimp only; omega), toNat_natCast]

theorem forward_end (s : HashMap c V) : s.forward s.end_ = s.end_ := by
  have hindex : ¬((s.total_size : Int) = -1) := by omega
  rw [end_eq]
  unfold forward
  rw [if_neg hindex, if_pos (le_refl _)]

theorem forward (h : Shape s L) (hp : Place s L p it) :
    Place s L (min (p + 1) (order s.total_size L).length) (s.forward it) := by
  cases hp with
  | rend =>
    have hnext := next [] h h.pos rfl (h.ring 0 h.pos).head?
    exact (forward_eq h.pos (.bucket 0)).symm ▸ hnext
  | end_ =>
    have hmin : min (((order s.total_size L).length : Int) + 1) (order s.total_size L).length =
        (order s.total_size L).length := by omega
    rw [hmin, forward_end]
    exact .end_
  | @entry i a l₁ l₂ hi hL =>
    have hring := h.ring i hi
    rw [hL, map_append, map_cons] at hring
    have hnext := next (l₁ ++ [a]) h hi (hL.trans (append_assoc l₁ [a] l₂).symm) hring.at.2
    obtain ⟨rest, hrest⟩ := order_split L hi
    have hlen := congrArg length hrest
    simp only [hL, length_append, length_cons] at hlen
    have hmin : min (((order i L).length : Int) + l₁.length + 1) (order s.total_size L).length =
        (order i L).length + (l₁ ++ [a]).length := by
      rw [length_append, length_singleton]
      omega
    rw [hmin, forward_eq hi]
    exact hnext

/-! ## Backward -/

theorem of_getLast? (hi : i < s.total_size) (hL : L i = l₁ ++ l₂)
    (hq : (Ptr.bucket i :: l₁.map Ptr.entry).getLast? = some q) : (q = .bucket i ∧ l₁ = []) ∨
      q ≠ .bucket i ∧ Place s L ((order i L).length + l₁.length - 1) ⟨i, q⟩ := by
  rcases eq_nil_or_concat' l₁ with rfl | ⟨l, a, rfl⟩
  · cases hq
    exact .inl ⟨rfl, rfl⟩
  · rw [map_append, ← cons_append, map_singleton, getLast?_concat] at hq
    cases hq
    have hplace := Place.entry (s := s) hi (hL.trans (append_assoc l [a] l₂))
    have hlen : ((order i L).length : Int) + (l ++ [a]).length - 1 =
        (order i L).length + l.length := by
      rw [length_append, length_singleton]
      omega
    exact .inr ⟨nofun, hlen ▸ hplace⟩

theorem scanReverse (h : Shape s L) {fuel : Nat} (hi : i < s.total_size) (hfuel : i < fuel) :
    Place s L ((order i L).length - 1) (s.scanReverse fuel ⟨i, .bucket i⟩) := by
  induction fuel generalizing i with
  | zero => cases hfuel
  | succ fuel ih =>
    unfold scanReverse
    dsimp only
    cases i with
    | zero => exact .rend
    | succ i =>
      have hlt : i < s.total_size := by omega
      have hcast : ((i + 1 : Nat) : Int) - 1 = i := by omega
      rw [hcast, toNat_natCast, if_pos (natCast_nonneg i)]
      have hall : L i = L i ++ [] := (append_nil _).symm
      rw [order_succ, length_append, natCast_add]
      rcases of_getLast? hlt hall (h.ring i hlt).getLast? with ⟨hq, hnil⟩ | ⟨hq, hplace⟩
      · rw [if_neg (not_not.mpr hq), hq, hnil]
        have hnext := ih hlt (by omega)
        rwa [length_nil, Int.natCast_zero, Int.add_zero]
      · rw [if_pos hq]
        exact hplace

/-- Backward from within a bucket. -/
theorem prev (h : Shape s L) (hi : i < s.total_size) (hL : L i = l₁ ++ l₂)
    (hq : (Ptr.bucket i :: l₁.map Ptr.entry).getLast? = some q) :
    Place s L ((order i L).length + l₁.length - 1)
      (if q = .bucket i then s.scanReverse s.total_size ⟨i, q⟩ else ⟨i, q⟩) := by
  rcases of_getLast? hi hL hq with ⟨rfl, rfl⟩ | ⟨hne, hplace⟩
  · rw [if_pos rfl, length_nil, Int.natCast_zero, Int.add_zero]
    exact scanReverse h hi hi
  · rw [if_neg hne]
    exact hplace

theorem reverse_eq (hi : i < s.total_size) (q : Ptr) : s.reverse ⟨i, q⟩ =
      if s.links.prev q = .bucket i then s.scanReverse s.total_size ⟨i, s.links.prev q⟩
      else ⟨i, s.links.prev q⟩ := by
  have hindex : ¬((i : Int) = s.total_size) := by omega
  unfold HashMap.reverse
  rw [if_neg hindex, if_neg (by dsimp only; omega), toNat_natCast]

theorem reverse_end (hpos : 0 < s.total_size) :
    s.reverse s.end_ = s.reverse ⟨(s.total_size - 1 : Nat), .bucket (s.total_size - 1)⟩ := by
  have hcast : (s.total_size : Int) - 1 = (s.total_size - 1 : Nat) := by omega
  have hne : ¬((s.total_size - 1 : Nat) : Int) = s.total_size := by omega
  rw [end_eq, HashMap.reverse, HashMap.reverse]
  rw [if_pos rfl, if_neg hne, hcast]

theorem reverse (h : Shape s L) (hp : Place s L p it) :
    Place s L (max (p - 1) (-1)) (s.reverse it) := by
  cases hp with
  | rend =>
    exact .rend
  | end_ =>
    have hlt : s.total_size - 1 < s.total_size := Nat.sub_lt h.pos Nat.one_pos
    have hprev := prev h hlt (append_nil _).symm (h.ring _ hlt).getLast?
    have hall := order_succ L (s.total_size - 1)
    rw [Nat.sub_add_cancel h.pos] at hall
    have hmax : max (((order s.total_size L).length : Int) - 1) (-1) =
        (order (s.total_size - 1) L).length + (L (s.total_size - 1)).length - 1 := by
      rw [hall, length_append]
      omega
    rw [hmax, reverse_end h.pos, reverse_eq hlt]
    exact hprev
  | @entry i a l₁ l₂ hi hL =>
    have hring := h.ring i hi
    rw [hL, map_append, map_cons] at hring
    have hprev := prev h hi hL hring.at.1
    have hmax : max (((order i L).length : Int) + l₁.length - 1) (-1) =
        (order i L).length + l₁.length - 1 := by omega
    rw [hmax, reverse_eq hi]
    exact hprev

/-! ## Any mixture -/

theorem walk (h : Shape s L) (w : List Bool) (hp : Place s L p it) :
    Place s L (w.foldl (HashMap.movePos (order s.total_size L).length) p) (w.foldl s.move it) := by
  induction w generalizing p it with
  | nil => exact hp
  | cons fwd w ih =>
    refine ih ?_
    cases fwd with
    | true => exact hp.forward h
    | false => exact hp.reverse h

theorem begin (h : Shape s L) : Place s L 0 s.begin := by
  have hmin : min ((-1 : Int) + 1) (order s.total_size L).length = 0 := by omega
  exact hmin ▸ (Place.rend (s := s) (L := L)).forward h

theorem rbegin (h : Shape s L) : Place s L ((order s.total_size L).length - 1) s.rbegin := by
  have hmax : max (((order s.total_size L).length : Int) - 1) (-1) =
      (order s.total_size L).length - 1 := by omega
  exact hmax ▸ (Place.end_ (s := s) (L := L)).reverse h

end Place

/-! ## Runs -/

theorem shape_createBuckets {entryBytes size : Nat} (hsize : 1 ≤ size)
    (hbytes : size * entryBytes < 2 ^ 64) :
    ∃ s, HashMap.createBuckets c V entryBytes size = some s ∧ Shape s fun _ => [] := by
  have horder : order size (fun _ => []) = [] := by simp [order]
  refine ⟨⟨⟨id, id⟩, fun _ => none, size, 0, []⟩, if_pos (Nat.mod_eq_of_lt hbytes), hsize,
    fun i _ => .empty ⟨rfl, rfl⟩, fun _ _ hk => absurd hk not_mem_nil,
    fun _ _ hk => (by cases hk), ?_, ?_, nodup_nil⟩
  · exact (congrArg length horder).symm
  · dsimp only
    rw [horder]
    exact Perm.nil

theorem step_shape {call : Call K V} (h : ∃ L, Shape s L) (hlegal : s.Legal call) :
    ∃ t, HashMap.step s call = some t ∧ ∃ L, Shape t L := by
  obtain ⟨L, h⟩ := h
  obtain ⟨t, out, L', hexec, hL', -⟩ := h.exec hlegal
  exact ⟨_, congrArg (Option.map _) hexec, L', hL'⟩

/-- **The hash map is a finite map**: after every run its buckets are well-formed rings that
have the entries of the finite map, the results of a call are those of the finite map exactly
if it is sound, and an iterator steps over each entry once in any mixture of `++` and `--`. -/
theorem hash_map_keeps {entryBytes size : Nat} (hsize : 1 ≤ size)
    (hbytes : size * entryBytes < 2 ^ 64) :
    ∃ s₀, HashMap.createBuckets c V entryBytes size = some s₀ ∧
      ∀ calls : List (Call K V), AllSteps HashMap.step HashMap.Legal s₀ calls →
        ∃ s, run HashMap.step s₀ calls = some s ∧ ∃ L, Shape s L ∧
          (∀ call, s.Legal call → ∃ t out, s.exec call = some (t, out) ∧
            (s.Agrees call { t with ref := s.refNext call } out ↔ s.Sound call)) ∧
          (order s.total_size L).Nodup ∧
          (∀ a, a ∈ order s.total_size L ↔ ∃ e, s.node a = some e) ∧
          ∀ w : List Bool, s.At (order s.total_size L)
              (w.foldl (HashMap.movePos (order s.total_size L).length) 0)
              (w.foldl s.move s.begin) ∧
            s.At (order s.total_size L)
              (w.foldl (HashMap.movePos (order s.total_size L).length)
                ((order s.total_size L).length - 1))
              (w.foldl s.move s.rbegin) := by
  obtain ⟨s₀, hs₀, hshape⟩ := shape_createBuckets (c := c) (V := V) hsize hbytes
  refine ⟨s₀, hs₀, fun calls hcalls => ?_⟩
  have hstep : ∀ (s : HashMap c V) call, (∃ L, Shape s L) → s.Legal call →
      ∃ t, HashMap.step s call = some t ∧ ∃ L, Shape t L := fun s call => step_shape
  obtain ⟨s, hrun, L, h⟩ := run_total_of hstep ⟨_, hshape⟩ hcalls
  refine ⟨s, hrun, L, h, fun call hlegal => ?_, h.nodup, fun a => h.mem_order, fun w => ?_⟩
  · obtain ⟨t, out, -, hexec, -, hagrees⟩ := h.exec hlegal
    exact ⟨t, out, hexec, hagrees⟩
  · exact ⟨((Place.begin h).walk h w).at_, ((Place.rbegin h).walk h w).at_⟩

/-- Numbers that are their own hash. -/
def natKeys : Keys Nat where
  hash k := k
  equal k k' := decide (k = k')
  equiv := ⟨fun _ => decide_eq_true rfl, fun h => decide_eq_true (of_decide_eq_true h).symm,
    fun h g => decide_eq_true ((of_decide_eq_true h).trans (of_decide_eq_true g))⟩
  respects _ _ h := of_decide_eq_true h

instance decidableLegal (s : HashMap c V) (call : Call K V) : Decidable (s.Legal call) := by
  cases call <;> dsimp only [HashMap.Legal]
  case unbindPos pos => split <;> infer_instance
  all_goals infer_instance

def sampleStart : HashMap natKeys Nat := ⟨⟨id, id⟩, fun _ => none, 2, 0, []⟩

/-- Both keys are in the second bucket. -/
def sampleCalls : List (Call Nat Nat) :=
  [.bindEntry 1 10 0 (some 100), .bind 3 30 (some 101), .trybind 1 11 (some 102),
    .rebindIntEntry 3 31 0 0 (some 102), .unbindEntry 100, .find 3]

theorem hash_map_keeps_sampleCalls :
    ∃ s, run HashMap.step sampleStart sampleCalls = some s ∧ ∃ L, Shape s L := by
  obtain ⟨s₀, hs₀, h⟩ := hash_map_keeps (c := natKeys) (V := Nat)
    (show 1 ≤ 2 by decide) (show 2 * 24 < 2 ^ 64 by decide)
  cases hs₀
  have hcalls : AllSteps HashMap.step HashMap.Legal sampleStart sampleCalls := by decide_cbv
  obtain ⟨s, hrun, L, hL, -⟩ := h sampleCalls hcalls
  exact ⟨s, hrun, L, hL⟩

/-- **`rebind` leaves the entry unset** where it binds a new key. -/
theorem rebind_entry_unset :
    ¬∀ (entryBytes size : Nat) (s₀ : HashMap natKeys Nat) (calls : List (Call Nat Nat))
        (s : HashMap natKeys Nat) (call : Call Nat Nat) (t : HashMap natKeys Nat)
        (out : Out Nat Nat), 1 ≤ size → size * entryBytes < 2 ^ 64 →
        HashMap.createBuckets natKeys Nat entryBytes size = some s₀ →
        AllSteps HashMap.step HashMap.Legal s₀ calls → run HashMap.step s₀ calls = some s →
        s.Legal call → s.exec call = some (t, out) →
        s.Agrees call { t with ref := s.refNext call } out := by
  intro h
  have hagrees := h 24 1 _ [] _ (.rebindEntry 5 7 3 (some 9)) _ _ (by decide) (by decide) rfl
    trivial rfl (fun _ _ => rfl) rfl
  obtain ⟨k, -, e, he, -⟩ := hagrees.entry (by decide) 3 rfl
  cases he

end Atcd.Maps
