import Mathlib
/-!
# Depth-first search with marks, and relations that stay acyclic

`search` looks for a goal along `next`, with one mark for each node that it does
not take back, so a node is visited once. The fuel bounds the depth.

A relation is acyclic when no node leads to itself. The lemmas are for a relation
that changes step by step: edges that lead to nodes without successors, and edges
out of a node that their targets do not lead to, close no cycle.

Results:
- `search_defined`: fuel beyond the number of unmarked nodes is enough;
- `search_iff`: a search from clean marks finds the goal exactly when a path
  leads there;
- `acyclic_sinks`, `acyclic_from`: new edges that close no cycle.
-/
namespace Atcd.Core

open List Function Relation.TransGen

variable {V : Type*} [DecidableEq V]

/-- One node after the other, until one leads to the goal. -/
def searchAll (visit : (V → Bool) → V → Option (Bool × (V → Bool))) :
    List V → (V → Bool) → Option (Bool × (V → Bool))
  | [], marks => some (false, marks)
  | v :: vs, marks =>
    match visit marks v with
    | none => none
    | some (true, marks) => some (true, marks)
    | some (false, marks) => searchAll visit vs marks

/-- Whether the goal is found from a node, and the marks afterwards. -/
def search (goal : V → Bool) (next : V → List V) :
    Nat → (V → Bool) → V → Option (Bool × (V → Bool))
  | 0, _, _ => none
  | n + 1, marks, v =>
    if marks v then some (false, marks)
    else if goal v then some (true, Function.update marks v true)
    else searchAll (search goal next n) (next v) (Function.update marks v true)

/-- A path along `next` to the goal. -/
def Leads (goal : V → Bool) (next : V → List V) (v : V) : Prop :=
  ∃ u, Relation.ReflTransGen (fun a b => b ∈ next a) v u ∧ goal u = true

variable {goal : V → Bool} {next : V → List V}

/-! ## Marks -/

/-- What a search leaves of the marks: none is taken back, and the nodes that
were marked are no goals and have their successors marked. -/
structure Explored (goal : V → Bool) (next : V → List V) (m m' : V → Bool) : Prop where
  keeps : ∀ v, m v = true → m' v = true
  closed : ∀ v, m' v = true → m v = false → goal v = false ∧ ∀ w ∈ next v, m' w = true

omit [DecidableEq V] in
theorem Explored.refl (m : V → Bool) : Explored goal next m m where
  keeps _ h := h
  closed v h h' := by simp [h] at h'

variable {m m' : V → Bool} {visit : (V → Bool) → V → Option (Bool × (V → Bool))} {all : List V}

omit [DecidableEq V] in
theorem Explored.trans {m'' : V → Bool} (h : Explored goal next m m')
    (h' : Explored goal next m' m'') : Explored goal next m m'' where
  keeps v hv := h'.keeps v (h.keeps v hv)
  closed v hv hm := by
    by_cases hm' : m' v = true
    · obtain ⟨hgoal, hnext⟩ := h.closed v hm' hm
      exact ⟨hgoal, fun w hw => h'.keeps w (hnext w hw)⟩
    · exact h'.closed v hv (by simpa using hm')

omit [DecidableEq V] in
theorem searchAll_explored
    (hvisit : ∀ m v m', visit m v = some (false, m') → Explored goal next m m' ∧ m' v = true)
    {vs : List V} {m m' : V → Bool} (h : searchAll visit vs m = some (false, m')) :
    Explored goal next m m' ∧ ∀ v ∈ vs, m' v = true := by
  induction vs generalizing m with
  | nil =>
    cases h
    exact ⟨.refl _, fun v hv => absurd hv not_mem_nil⟩
  | cons v vs ih =>
    rw [searchAll] at h
    split at h
    · cases h
    · cases h
    · rename_i m₁ hv
      obtain ⟨hexp, hmark⟩ := hvisit m v m₁ hv
      obtain ⟨hrest, hall⟩ := ih h
      refine ⟨hexp.trans hrest, ?_⟩
      intro u hu
      rcases mem_cons.mp hu with rfl | hu
      · exact hrest.keeps u hmark
      · exact hall u hu

theorem search_explored {n : Nat} {v : V} (h : search goal next n m v = some (false, m')) :
    Explored goal next m m' ∧ m' v = true := by
  induction n generalizing m m' v with
  | zero => cases h
  | succ n ih =>
    rw [search] at h
    split at h
    · rename_i hm
      cases h
      exact ⟨.refl m, hm⟩
    split at h
    · cases h
    · rename_i hm hgoal
      obtain ⟨hexp, hall⟩ := searchAll_explored (fun _ _ _ hu => ih hu) h
      have hmark : m' v = true := hexp.keeps v (update_self ..)
      refine ⟨⟨fun u hu => hexp.keeps u ?_, fun u hu hu' => ?_⟩, hmark⟩
      · by_cases huv : u = v
        · rw [huv, update_self]
        · rw [update_of_ne huv]
          exact hu
      · by_cases huv : u = v
        · rw [huv]
          exact ⟨by simpa using hgoal, hall⟩
        · refine hexp.closed u hu ?_
          rw [update_of_ne huv]
          exact hu'

/-! ## Found exactly when there is a path -/

omit [DecidableEq V] in
theorem searchAll_sound {P : V → Prop}
    (hvisit : ∀ m v m', visit m v = some (true, m') → P v) {vs : List V} {m m' : V → Bool}
    (h : searchAll visit vs m = some (true, m')) : ∃ v ∈ vs, P v := by
  induction vs generalizing m with
  | nil => cases h
  | cons v vs ih =>
    rw [searchAll] at h
    split at h
    · cases h
    · rename_i hv
      exact ⟨v, mem_cons_self, hvisit _ _ _ hv⟩
    · obtain ⟨u, hu, hP⟩ := ih h
      exact ⟨u, mem_cons_of_mem _ hu, hP⟩

theorem search_sound {n : Nat} {v : V}
    (h : search goal next n m v = some (true, m')) : Leads goal next v := by
  induction n generalizing m m' v with
  | zero => cases h
  | succ n ih =>
    rw [search] at h
    split at h
    · cases h
    split at h
    · rename_i hgoal
      exact ⟨v, .refl, hgoal⟩
    · obtain ⟨w, hw, u, hpath, hgoal⟩ := searchAll_sound (fun _ _ _ hu => ih hu) h
      exact ⟨u, .head hw hpath, hgoal⟩

theorem search_complete {n : Nat} {v : V}
    (h : search goal next n (fun _ => false) v = some (false, m')) : ¬ Leads goal next v := by
  obtain ⟨hexp, hv⟩ := search_explored h
  rintro ⟨u, hpath, hgoal⟩
  have hu : m' u = true := by
    clear hgoal
    induction hpath with
    | refl => exact hv
    | tail _ hstep ih => exact (hexp.closed _ ih rfl).2 _ hstep
  rw [(hexp.closed u hu rfl).1] at hgoal
  cases hgoal

/-- **The search is exact** from clean marks. -/
theorem search_iff {n : Nat} {v : V} {b : Bool}
    (h : search goal next n (fun _ => false) v = some (b, m')) :
    b = true ↔ Leads goal next v := by
  cases b with
  | true => exact ⟨fun _ => search_sound h, fun _ => rfl⟩
  | false => exact ⟨fun hb => absurd hb Bool.false_ne_true, fun hl => absurd hl (search_complete h)⟩

/-! ## Enough fuel -/

/-- The nodes without a mark. -/
def unmarked (vs : List V) (m : V → Bool) : Nat := vs.countP fun v => !m v

omit [DecidableEq V] in
theorem unmarked_mono (h : ∀ v, m v = true → m' v = true) (vs : List V) :
    unmarked vs m' ≤ unmarked vs m := by
  refine countP_mono_left fun v _ hv => ?_
  by_contra hm
  rw [h v (by simpa using hm)] at hv
  cases hv

theorem unmarked_update_lt {v : V} {vs : List V} (hmem : v ∈ vs)
    (hv : m v = false) : unmarked vs (update m v true) < unmarked vs m := by
  induction vs with
  | nil => cases hmem
  | cons u vs ih =>
    have hle : unmarked vs (update m v true) ≤ unmarked vs m := by
      refine unmarked_mono (fun w hw => ?_) vs
      by_cases hwv : w = v
      · rw [hwv, update_self]
      · rw [update_of_ne hwv]
        exact hw
    unfold unmarked at hle ih ⊢
    rw [countP_cons, countP_cons]
    by_cases huv : u = v
    · subst huv
      rw [update_self, hv]
      simp
      omega
    · have := ih (mem_of_ne_of_mem (Ne.symm huv) hmem)
      rw [update_of_ne huv]
      omega

omit [DecidableEq V] in
theorem searchAll_defined
    {n : Nat} (hvisit : ∀ m v, v ∈ all → unmarked all m < n → (visit m v).isSome)
    (hkeeps : ∀ m v m', visit m v = some (false, m') → ∀ u, m u = true → m' u = true)
    {vs : List V} (hvs : ∀ v ∈ vs, v ∈ all) {m : V → Bool} (hn : unmarked all m < n) :
    (searchAll visit vs m).isSome := by
  induction vs generalizing m with
  | nil => rfl
  | cons v vs ih =>
    rw [searchAll]
    split
    · rename_i hv
      have := hvisit m v (hvs v mem_cons_self) hn
      rw [hv] at this
      cases this
    · rfl
    · rename_i m₁ hv
      refine ih (fun u hu => hvs u (mem_cons_of_mem _ hu)) ?_
      exact Nat.lt_of_le_of_lt (unmarked_mono (hkeeps m v m₁ hv) all) hn

/-- **The search ends**: as many nested visits as there are unmarked nodes. -/
theorem search_defined (hall : ∀ v, ∀ w ∈ next v, w ∈ all) {n : Nat}
    {m : V → Bool} {v : V} (hv : v ∈ all) (hn : unmarked all m < n) :
    (search goal next n m v).isSome := by
  induction n generalizing m v with
  | zero => omega
  | succ n ih =>
    rw [search]
    split
    · rfl
    split
    · rfl
    · rename_i hm _
      have hlt := unmarked_update_lt hv (by simpa using hm)
      refine searchAll_defined (fun m u hu => ih hu) ?_ (hall v) (by omega)
      intro m u m' hu
      exact (search_explored hu).1.keeps

omit [DecidableEq V] in
theorem searchAll_within (hvisit : ∀ m v b m', v ∈ all → visit m v = some (b, m') →
      ∀ u, m' u = true → m u = true ∨ u ∈ all)
    {vs : List V} (hvs : ∀ v ∈ vs, v ∈ all) {m m' : V → Bool} {b : Bool}
    (h : searchAll visit vs m = some (b, m')) : ∀ u, m' u = true → m u = true ∨ u ∈ all := by
  induction vs generalizing m with
  | nil =>
    cases h
    exact fun u hu => .inl hu
  | cons v vs ih =>
    rw [searchAll] at h
    split at h
    · cases h
    · rename_i hv
      cases h
      exact hvisit _ _ _ _ (hvs v mem_cons_self) hv
    · rename_i hv
      intro u hu
      rcases ih (fun w hw => hvs w (mem_cons_of_mem _ hw)) h u hu with hm | hall
      · exact hvisit _ _ _ _ (hvs v mem_cons_self) hv u hm
      · exact .inr hall

/-- Only nodes that the start leads to get a mark. -/
theorem search_within (hall : ∀ v, ∀ w ∈ next v, w ∈ all) {n : Nat}
    {m m' : V → Bool} {v : V} {b : Bool} (hv : v ∈ all) (h : search goal next n m v = some (b, m')) :
    ∀ u, m' u = true → m u = true ∨ u ∈ all := by
  have hupdate : ∀ (m : V → Bool) v, v ∈ all →
      ∀ u, update m v true u = true → m u = true ∨ u ∈ all := by
    intro m v hv u hu
    by_cases huv : u = v
    · exact .inr (huv ▸ hv)
    · rw [update_of_ne huv] at hu
      exact .inl hu
  induction n generalizing m m' v b with
  | zero => cases h
  | succ n ih =>
    rw [search] at h
    split at h
    · cases h
      exact fun u hu => .inl hu
    split at h
    · cases h
      exact hupdate m v hv
    · intro u hu
      rcases searchAll_within (fun _ _ _ _ hw hr => ih hw hr) (hall v) h u hu with hm | hall
      · exact hupdate m v hv u hm
      · exact .inr hall

/-! ## Acyclic relations -/

def Acyclic {A : Type*} (r : A → A → Prop) : Prop := ∀ a, ¬ Relation.TransGen r a a

section Acyclic

variable {A : Type*} {r r' : A → A → Prop}

theorem Acyclic.mono (h : Acyclic r) (hsub : ∀ a b, r' a b → r a b) : Acyclic r' :=
  fun a ha => h a (Relation.TransGen.mono hsub a a ha)

/-- New edges that lead to nodes without successors close no cycle. -/
theorem acyclic_sinks (h : Acyclic r) (hnew : ∀ a b, r' a b → r a b ∨ ∀ c, ¬ r' b c) :
    Acyclic r' := by
  -- a path that can be gone on from its end has old edges only
  have hold : ∀ a b, Relation.TransGen r' a b → ∀ c, r' b c → Relation.TransGen r a b := by
    intro a b hab
    induction hab with
    | single hedge =>
      intro c hc
      exact .single ((hnew _ _ hedge).resolve_right fun hno => hno c hc)
    | tail _ hedge ih =>
      intro c hc
      exact (ih _ hedge).tail ((hnew _ _ hedge).resolve_right fun hno => hno c hc)
  intro a ha
  obtain ⟨b, hab, -⟩ := head'_iff.mp ha
  exact h a (hold a a ha b hab)

/-- New edges out of a node that their targets do not lead to close no cycle. -/
theorem acyclic_from (h : Acyclic r) {x : A}
    (hnew : ∀ a b, r' a b → r a b ∨ a = x ∧ ¬ Relation.ReflTransGen r b x) : Acyclic r' := by
  -- up to `x` a path has old edges only
  have hold : ∀ a, Relation.ReflTransGen r' a x → Relation.ReflTransGen r a x := by
    intro a ha
    induction ha using Relation.ReflTransGen.head_induction_on with
    | refl => exact .refl
    | head hedge _ ih =>
      rcases hnew _ _ hedge with hr | ⟨rfl, -⟩
      · exact .head hr ih
      · exact .refl
  have hx : ¬ Relation.TransGen r' x x := by
    intro hxx
    obtain ⟨b, hedge, hbx⟩ := head'_iff.mp hxx
    rcases hnew x b hedge with hr | ⟨-, hno⟩
    · exact h x (head'_iff.mpr ⟨b, hr, hold b hbx⟩)
    · exact hno (hold b hbx)
  -- a cycle that does not meet `x` has old edges only
  have hcycle : ∀ a b, Relation.TransGen r' a b →
      Relation.TransGen r a b ∨ Relation.ReflTransGen r' a x ∧ Relation.TransGen r' x b := by
    intro a b hab
    induction hab with
    | single hedge =>
      rcases hnew _ _ hedge with hr | ⟨rfl, -⟩
      · exact .inl (.single hr)
      · exact .inr ⟨.refl, .single hedge⟩
    | tail hpath hedge ih =>
      rcases ih with hr | ⟨hax, hxb⟩
      · rcases hnew _ _ hedge with hr' | ⟨rfl, -⟩
        · exact .inl (hr.tail hr')
        · exact .inr ⟨hpath.to_reflTransGen, .single hedge⟩
      · exact .inr ⟨hax, hxb.tail hedge⟩
  intro a ha
  rcases hcycle a a ha with hr | ⟨hax, hxa⟩
  · exact h a hr
  · exact hx (hxa.trans_left hax)

end Acyclic

end Atcd.Core
