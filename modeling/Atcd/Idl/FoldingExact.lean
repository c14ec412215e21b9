import Atcd.Idl.Operators
/-!
# Constant folding is exact where every operator is sound

Whole trees, for a target of the integer types and for `char`. A tree is folded to its exact
value or rejected if no operator in it is one that the code gets wrong, and the condition is
exact for a tree with all its subexpressions. No null value is dereferenced for the integer
types; for `char` one is, wherever an operand of `+ - * /` has no value as a `double`.

Results:
- `eval_sound`: a sound tree evaluates to its exact value, or to none if there is none in
  range;
- `eval_ne_null`: no null value is dereferenced for an integer type;
- `eval_const`: what an evaluation without a kind comes to;
- `fold_iff`: the three together.
-/
namespace Atcd.Idl

open List Option Idl.Tree Idl.Expr

section Sound

variable {P : DataModel} {t : IntType}

theorem coerce_of_eval (ht : t ≠ .char) {e e' : Expr} {X : Option Int}
    (h : e.evalInternal P (.int t) = .ok (X.map (word t), e')) :
    ∃ e'', e.coerce P (.int t) = .ok (X.map (word t), e'') := by
  unfold coerce
  rw [kind_int ht, h]
  cases X with
  | none => exact ⟨e', rfl⟩
  | some v =>
    refine ⟨e'.setEv (some (word t v)), ?_⟩
    have hsame : convert P (.int t) (word t v) = some (word t v) :=
      convert_same (P := P) (Word.ofInt t v)
    simp [bind, Except.bind, pure, Except.pure, hsame]

theorem eval_literal (w : Word) : (Tree.lit w).expr.evalInternal P (.int t) =
      .ok ((keep t w.val).map (word t), (Tree.lit w).expr) := by
  simp only [expr, evalInternal, evalKind, getD_some, coerceValue]
  by_cases h : t.Holds w.val
  · rw [if_pos h, keep_word h, word]
  · rw [if_neg h, keep_out h]

theorem evalOperator_null {ek : EvalKind} {ec : BinOp} {v1 v2 : Expr}
    (h : v1.ev = none ∨ v2.ev = none) : evalOperator P ek ec v1 v2 = .ok (none, v1, v2) := by
  cases ec <;> simp only [evalOperator, evalBinOp, evalModOp, evalBitOp, if_pos h]

/-- A node, when its operands are evaluated: it comes to the exact value if and only if its
operator is sound on operands in range. -/
theorem eval_unary {ec : UnOp} {v1 : Tree} {e1 : Expr} (ht : t ≠ .char)
    (h1 : v1.expr.evalInternal P (.int t) = .ok ((v1.exactIn t).map (word t), e1)) :
    (∃ e', (Tree.un ec v1).expr.evalInternal P (.int t) =
        .ok (((Tree.un ec v1).exactIn t).map (word t), e')) ↔
      ∀ a, v1.exactIn t = some a → UnSound P t ec a := by
  simp only [expr, evalInternal, h1, bind, Except.bind, pure, Except.pure,
    exactIn, Except.ok.injEq, Prod.mk.injEq]
  cases ha : v1.exactIn t with
  | none =>
    simp only [map_none, bind_none, reduceCtorEq, false_implies, implies_true, iff_true]
    exact ⟨_, by simp [evalUnOp], rfl⟩
  | some a =>
    simp only [map_some, bind_some, some.injEq, forall_eq']
    have hnode := unary_sound (P := P) ht (exactIn_holds ha)
      (ev_setEv (some (word t a)) e1) ec
    rw [← hnode]
    constructor
    · rintro ⟨e', he, -⟩
      exact he
    · intro he
      exact ⟨_, he, rfl⟩

theorem eval_binary {ec : BinOp} {v1 v2 : Tree} {e1 e2 : Expr} (ht : t ≠ .char)
    (h1 : v1.expr.evalInternal P (.int t) = .ok ((v1.exactIn t).map (word t), e1))
    (h2 : v2.expr.evalInternal P (.int t) = .ok ((v2.exactIn t).map (word t), e2))
    (hshift : ec = .left ∨ ec = .right → ∀ a b, v1.exactIn t = some a → v2.exactIn t = some b →
      0 ≤ b ∧ b < t.bits) : (∃ e', (Tree.bin ec v1 v2).expr.evalInternal P (.int t) =
        .ok (((Tree.bin ec v1 v2).exactIn t).map (word t), e')) ↔
      ∀ a b, v1.exactIn t = some a → v2.exactIn t = some b → BinSound P t ec a b := by
  simp only [expr, evalInternal, h1, h2, bind, Except.bind, pure, Except.pure, exactIn]
  cases ha : v1.exactIn t with
  | none =>
    rw [evalOperator_null (.inl (by simp))]
    exact iff_of_true ⟨_, rfl⟩ (by simp)
  | some a =>
    cases hb : v2.exactIn t with
    | none =>
      rw [evalOperator_null (.inr (by simp))]
      exact iff_of_true ⟨_, rfl⟩ (by simp)
    | some b =>
      simp only [map_some, bind_some, some.injEq]
      have hone : (∀ a' b', a = a' → b = b' → BinSound P t ec a' b') ↔ BinSound P t ec a b :=
        ⟨fun h => h a b rfl rfl, by rintro h _ _ rfl rfl; exact h⟩
      have hnode := binary_sound (P := P) ht (exactIn_holds ha) (exactIn_holds hb)
        (ev_setEv (some (word t a)) e1) (ev_setEv (some (word t b)) e2) ec
        fun hec => hshift hec a b ha hb
      rw [hone, ← hnode, Exactly]
      cases evalOperator P (.int t) ec (e1.setEv (some (word t a)))
          (e2.setEv (some (word t b))) with
      | error f => simp
      | ok o => simp

theorem Tree.subtrees_trans {r s : Tree} (hr : r ∈ s.subtrees) :
    ∀ {e : Tree}, s ∈ e.subtrees → r ∈ e.subtrees
  | .lit w, hs => by
    obtain rfl : s = .lit w := by simpa [subtrees] using hs
    exact hr
  | .un ec v1, hs => by
    rcases mem_cons.mp hs with rfl | hs
    · exact hr
    · exact mem_cons_of_mem _ (subtrees_trans hr hs)
  | .bin ec v1 v2, hs => by
    rcases mem_cons.mp hs with rfl | hs
    · exact hr
    · apply mem_cons_of_mem
      rcases mem_append.mp hs with hs | hs
      · exact mem_append_left _ (subtrees_trans hr hs)
      · exact mem_append_right _ (subtrees_trans hr hs)

theorem Tree.Sound.sub {s : Tree} : ∀ {e : Tree}, e.Sound P t → s ∈ e.subtrees → s.Sound P t
  | .lit w, h, hs => by
    obtain rfl : s = .lit w := by simpa [subtrees] using hs
    exact h
  | .un ec v1, h, hs => by
    rcases mem_cons.mp hs with rfl | hs
    · exact h
    · exact Sound.sub h.1 hs
  | .bin ec v1 v2, h, hs => by
    rcases mem_cons.mp hs with rfl | hs
    · exact h
    · rcases mem_append.mp hs with hs | hs
      · exact Sound.sub h.1 hs
      · exact Sound.sub h.2.1 hs

theorem Tree.ShiftsIn.sub {e s : Tree} (h : e.ShiftsIn t) (hs : ∀ r ∈ s.subtrees, r ∈ e.subtrees) :
    s.ShiftsIn t := fun ec v1 v2 hmem => h ec v1 v2 (hs _ hmem)

theorem eval_sound (ht : t ≠ .char) : ∀ {e : Tree}, e.ShiftsIn t → e.Sound P t →
    ∃ e', e.expr.evalInternal P (.int t) = .ok ((e.exactIn t).map (word t), e')
  | .lit w, _, _ => ⟨_, eval_literal w⟩
  | .un ec v1, hshift, hsound => by
    obtain ⟨e1, h1⟩ := eval_sound ht
      (hshift.sub fun r hr => by simp [subtrees, hr]) hsound.1
    exact (eval_unary ht h1).mpr hsound.2
  | .bin ec v1 v2, hshift, hsound => by
    obtain ⟨e1, h1⟩ := eval_sound ht
      (hshift.sub fun r hr => by simp [subtrees, hr]) hsound.1
    obtain ⟨e2, h2⟩ := eval_sound ht
      (hshift.sub fun r hr => by simp [subtrees, hr]) hsound.2.1
    exact (eval_binary ht h1 h2 (hshift ec v1 v2 (mem_subtrees _))).mpr hsound.2.2

theorem evalInternal_typed {e e' : Expr} {v : ExprValue}
    (h : e.evalInternal P (.int t) = .ok (some v, e')) : ∃ w : Word, v = .int w ∧ w.type = t := by
  have hkind : ∃ ev, evalKind P (.int t) ev = some v := by
    cases e with
    | lit ev =>
      cases ev with
      | none => simp [evalInternal] at h
      | some ev =>
        simp only [evalInternal, Except.ok.injEq, Prod.mk.injEq] at h
        exact ⟨_, h.1⟩
    | un ev ec v1 =>
      cases ev with
      | some ev =>
        simp only [evalInternal, Except.ok.injEq, Prod.mk.injEq] at h
        exact ⟨_, h.1⟩
      | none =>
        simp only [evalInternal, bind, Except.bind, pure, Except.pure] at h
        cases hv : v1.evalInternal P (.int t) with
        | error f => simp [hv] at h
        | ok p =>
          simp only [hv, Except.ok.injEq, Prod.mk.injEq] at h
          exact ⟨_, h.1⟩
    | bin ev ec v1 v2 =>
      cases ev with
      | some ev =>
        simp only [evalInternal, Except.ok.injEq, Prod.mk.injEq] at h
        exact ⟨_, h.1⟩
      | none =>
        simp only [evalInternal, bind, Except.bind, pure, Except.pure] at h
        cases hv1 : v1.evalInternal P (.int t) with
        | error f => simp [hv1] at h
        | ok p1 =>
          cases hv2 : v2.evalInternal P (.int t) with
          | error f => simp [hv1, hv2] at h
          | ok p2 =>
            cases hq : evalOperator P (.int t) ec (p1.2.setEv p1.1) (p2.2.setEv p2.1) with
            | error f => simp [hv1, hv2, hq] at h
            | ok q =>
              simp only [hv1, hv2, hq, Except.ok.injEq, Prod.mk.injEq] at h
              exact ⟨_, h.1⟩
  obtain ⟨ev, hev⟩ := hkind
  exact evalKind_typed hev

end Sound

section Exact

variable {P : DataModel} {t : IntType}

/-- What folding a tree for an integer type has to come to: its exact value, if that of every
subexpression is in range, and no value, if its own is not or if a divisor is zero. -/
def FoldsExactly (P : DataModel) (t : IntType) (e : Tree) : Prop :=
  (e.AllIn t → ∃ w e', e.expr.coerce P (.int t) = .ok (some (.int w), e') ∧ w.type = t ∧
    e.exact t = some w.val) ∧
  ((∃ v, e.exact t = some v ∧ ¬t.Holds v) ∨ e.ZeroDivisor t →
    ∃ e', e.expr.coerce P (.int t) = .ok (none, e'))

theorem foldsExactly_of_eval (ht : t ≠ .char) {e : Tree} {e' : Expr}
    (h : e.expr.evalInternal P (.int t) = .ok ((e.exactIn t).map (word t), e')) :
    FoldsExactly P t e := by
  obtain ⟨e'', hcoerce⟩ := coerce_of_eval ht h
  constructor
  · intro hall
    obtain ⟨v, hv⟩ := exactIn_of_allIn hall
    refine ⟨Word.ofInt t v, e'', ?_, rfl, ?_⟩
    · rw [hcoerce, hv, map_some, word]
    · rw [exact_of_exactIn hv, Word.val_ofInt (exactIn_holds hv)]
  · intro hreject
    have hnone : e.exactIn t = none := by
      rcases hreject with ⟨v, hv, hout⟩ | hzero
      · exact exactIn_none_of_out hv hout
      · exact exactIn_none_of_zeroDivisor hzero
    rw [hnone] at hcoerce
    exact ⟨e'', hcoerce⟩

/-- The converse of `coerce_of_eval`: what an evaluation for a type comes to is of the type. -/
theorem eval_of_coerce (ht : t ≠ .char) {e : Tree} {o : Option ExprValue} {e' : Expr}
    (h : e.expr.coerce P (.int t) = .ok (o, e')) :
    ∃ e'', e.expr.evalInternal P (.int t) = .ok (o, e'') := by
  unfold coerce at h
  rw [kind_int ht] at h
  cases heval : e.expr.evalInternal P (.int t) with
  | error f => simp [heval, bind, Except.bind] at h
  | ok p =>
    obtain ⟨r, e''⟩ := p
    refine ⟨e'', ?_⟩
    simp only [heval, bind, Except.bind] at h
    cases r with
    | none =>
      simp only [pure, Except.pure, Except.ok.injEq, Prod.mk.injEq] at h
      rw [← h.1]
    | some v =>
      obtain ⟨w, rfl, rfl⟩ := evalInternal_typed heval
      simp only [pure, Except.pure, Except.ok.injEq, Prod.mk.injEq, convert_same] at h
      rw [← h.1]

theorem Tree.allIn_of_exactIn : ∀ {e : Tree} {v : Int}, e.exactIn t = some v → e.AllIn t
  | .lit w, v, h => by
    intro s hs
    obtain rfl : s = .lit w := by simpa [subtrees] using hs
    exact ⟨v, exact_of_exactIn h, exactIn_holds h⟩
  | .un ec v1, v, h => by
    intro s hs
    rcases mem_cons.mp hs with rfl | hs
    · exact ⟨v, exact_of_exactIn h, exactIn_holds h⟩
    · simp only [exactIn, bind_eq_some_iff] at h
      obtain ⟨a, ha, -⟩ := h
      exact allIn_of_exactIn ha s hs
  | .bin ec v1 v2, v, h => by
    intro s hs
    rcases mem_cons.mp hs with rfl | hs
    · exact ⟨v, exact_of_exactIn h, exactIn_holds h⟩
    · simp only [exactIn, bind_eq_some_iff] at h
      obtain ⟨a, ha, b, hb, -⟩ := h
      rcases mem_append.mp hs with hs | hs
      · exact allIn_of_exactIn ha s hs
      · exact allIn_of_exactIn hb s hs

theorem eval_of_foldsExactly (ht : t ≠ .char) {e : Tree} (h : FoldsExactly P t e)
    (hdef : (∃ v, e.exact t = some v ∧ (e.exactIn t = keep t v)) ∨ e.ZeroDivisor t) :
    ∃ e', e.expr.evalInternal P (.int t) = .ok ((e.exactIn t).map (word t), e') := by
  obtain ⟨hin, hout⟩ := h
  rcases hdef with ⟨v, hv, hkeep⟩ | hzero
  · by_cases hholds : t.Holds v
    · rw [keep_of_holds hholds] at hkeep
      obtain ⟨w, e', hcoerce, rfl, hval⟩ := hin (allIn_of_exactIn hkeep)
      obtain rfl : v = w.val := by
        rw [hv] at hval
        exact some.inj hval
      rw [hkeep, map_some, word, w.ofInt_val]
      exact eval_of_coerce ht hcoerce
    · obtain ⟨e', hcoerce⟩ := hout (.inl ⟨v, hv, hholds⟩)
      rw [hkeep, keep_out hholds]
      exact eval_of_coerce ht hcoerce
  · obtain ⟨e', hcoerce⟩ := hout (.inr hzero)
    rw [exactIn_none_of_zeroDivisor hzero]
    exact eval_of_coerce ht hcoerce

/-- Operands in range have a node's exact value, or a zero divisor, or a shift amount from the
width on. -/
theorem binExact_cases {ec : BinOp} {v1 v2 : Tree} {a b : Int} (ha : v1.exactIn t = some a)
    (hb : v2.exactIn t = some b) (hshift : ec = .left ∨ ec = .right → 0 ≤ b ∧ b < t.bits) :
    (∃ v, (Tree.bin ec v1 v2).exact t = some v ∧ (Tree.bin ec v1 v2).exactIn t = keep t v) ∨
      (Tree.bin ec v1 v2).ZeroDivisor t := by
  have hea := exact_of_exactIn ha
  have heb := exact_of_exactIn hb
  have hsome : ∀ v, binExact t ec a b = some v →
      (bin ec v1 v2).exact t = some v ∧ (bin ec v1 v2).exactIn t = keep t v := by
    intro v hv
    simp [exact, exactIn, ha, hb, hea, heb, hv]
  have hzero : ec = .div ∨ ec = .mod → b = 0 → (bin ec v1 v2).ZeroDivisor t := by
    rintro hec rfl
    exact ⟨ec, v1, v2, mem_subtrees _, hec, heb⟩
  cases hv : binExact t ec a b with
  | some v => exact .inl ⟨v, hsome v hv⟩
  | none =>
    right
    cases ec <;> simp [binExact] at hv
    · exact hzero (.inl rfl) hv
    · exact hzero (.inr rfl) hv
    · exact absurd (hshift (.inl rfl)).2 (not_lt.mpr (hv (hshift (.inl rfl)).1))
    · exact absurd (hshift (.inr rfl)).2 (not_lt.mpr (hv (hshift (.inr rfl)).1))

theorem sound_of_foldsExactly (ht : t ≠ .char) : ∀ {e : Tree}, e.ShiftsIn t →
    (∀ s ∈ e.subtrees, FoldsExactly P t s) → e.Sound P t
  | .lit w, _, _ => trivial
  | .un ec v1, hshift, hall => by
    have hs1 := hshift.sub (s := v1) fun r hr => by simp [subtrees, hr]
    have h1 := sound_of_foldsExactly ht hs1 fun s hs => hall s (by simp [subtrees, hs])
    refine ⟨h1, fun a ha => ?_⟩
    obtain ⟨e1, he1⟩ := eval_sound ht hs1 h1
    apply (eval_unary ht he1).mp _ a ha
    apply eval_of_foldsExactly ht (hall _ (mem_subtrees _))
    refine .inl ⟨unExact t ec a, ?_, ?_⟩
    · simp [exact, exact_of_exactIn ha]
    · simp [exactIn, ha]
  | .bin ec v1 v2, hshift, hall => by
    have hs1 := hshift.sub (s := v1) fun r hr => by simp [subtrees, hr]
    have hs2 := hshift.sub (s := v2) fun r hr => by simp [subtrees, hr]
    have h1 := sound_of_foldsExactly ht hs1 fun s hs => hall s (by simp [subtrees, hs])
    have h2 := sound_of_foldsExactly ht hs2 fun s hs => hall s (by simp [subtrees, hs])
    refine ⟨h1, h2, fun a b ha hb => ?_⟩
    obtain ⟨e1, he1⟩ := eval_sound ht hs1 h1
    obtain ⟨e2, he2⟩ := eval_sound ht hs2 h2
    have hnode := hshift ec v1 v2 (mem_subtrees _)
    apply (eval_binary ht he1 he2 hnode).mp _ a b ha hb
    apply eval_of_foldsExactly ht (hall _ (mem_subtrees _))
    exact binExact_cases ha hb fun hec => hnode hec a b ha hb

end Exact

section Null

variable {P : DataModel} {t : IntType}

theorem ne_null_of_ok {α : Type} {x : Except Fault α} (h : ∃ r, x = .ok r) :
    x ≠ .error .nullEv := by
  obtain ⟨r, rfl⟩ := h
  simp

theorem inInts_ne_null (ht : t ≠ .char) {ec : BinOp} {v1 v2 : Expr} {a b : Int}
    (ha : t.Holds a) (hb : t.Holds b) (h1 : v1.ev = some (word t a))
    (h2 : v2.ev = some (word t b)) : inInts P t ec v1 v2 ≠ .error .nullEv := by
  have hop : intOp t ec a b ≠ .error .nullEv := by
    cases ec with
    | div => simp only [intOp]; split_ifs <;> simp
    | mod => simp only [intOp]; split_ifs <;> simp
    | _ => simp [intOp]
  rw [inInts_eq ht ec ha hb h1 h2]
  cases hr : intOp t ec a b with
  | error f =>
    rw [hr] at hop
    simpa [Except.map] using hop
  | ok r => simp [Except.map]

theorem evalOperator_ne_null (ht : t ≠ .char) {ec : BinOp} {v1 v2 : Expr} {a b : Int}
    (ha : t.Holds a) (hb : t.Holds b) (h1 : v1.ev = some (word t a))
    (h2 : v2.ev = some (word t b)) : evalOperator P (.int t) ec v1 v2 ≠ .error .nullEv := by
  have hints : inInts P t ec v1 v2 ≠ .error .nullEv := inInts_ne_null ht ha hb h1 h2
  have hbin : evalBinOp P (.int t) ec v1 v2 ≠ .error .nullEv := by
    rcases types ht with hn | hw
    · rw [evalBinOp_narrow hn h1 h2]
      apply ne_null_of_ok
      simp only [inDoubles, coerceEv_narrow hn ha h1, coerceEv_narrow hn hb h2, deref, bind,
        Except.bind]
      exact ⟨_, rfl⟩
    · rwa [evalBinOp_wide hw h1 h2]
  have hmod : evalModOp P (.int t) ec v1 v2 ≠ .error .nullEv := by
    rw [evalModOp_eq ht h1 h2]
    split_ifs
    · simp
    · exact hints
  have hbit : evalBitOp P (.int t) ec v1 v2 ≠ .error .nullEv := by
    rwa [evalBitOp_eq ht h1 h2]
  cases ec <;> assumption

theorem eval_ne_null (ht : t ≠ .char) : ∀ e : Expr, e.evalInternal P (.int t) ≠ .error .nullEv
  | .lit none => by simp [evalInternal]
  | .lit (some ev) => by simp [evalInternal]
  | .un (some ev) ec v1 => by simp [evalInternal]
  | .bin (some ev) ec v1 v2 => by simp [evalInternal]
  | .un none ec v1 => by
    have h1 := eval_ne_null ht v1
    simp only [evalInternal, bind, Except.bind, pure, Except.pure]
    cases hv : v1.evalInternal P (.int t) with
    | error f =>
      rw [hv] at h1
      simpa using h1
    | ok p => simp
  | .bin none ec v1 v2 => by
    have h1 := eval_ne_null ht v1
    have h2 := eval_ne_null ht v2
    simp only [evalInternal, bind, Except.bind, pure, Except.pure]
    cases hv1 : v1.evalInternal P (.int t) with
    | error f =>
      rw [hv1] at h1
      simpa using h1
    | ok p1 =>
      cases hv2 : v2.evalInternal P (.int t) with
      | error f =>
        rw [hv2] at h2
        simpa using h2
      | ok p2 =>
        simp only
        have hop : evalOperator P (.int t) ec (p1.2.setEv p1.1) (p2.2.setEv p2.1) ≠
            .error .nullEv := by
          obtain ⟨r1, e1⟩ := p1
          obtain ⟨r2, e2⟩ := p2
          cases r1 with
          | none =>
            rw [evalOperator_null (.inl (by simp))]
            simp
          | some x1 =>
            cases r2 with
            | none =>
              rw [evalOperator_null (.inr (by simp))]
              simp
            | some x2 =>
              obtain ⟨w1, rfl, rfl⟩ := evalInternal_typed hv1
              obtain ⟨w2, rfl, hw2⟩ := evalInternal_typed hv2
              have hin2 := w2.inRange
              rw [hw2] at hin2
              apply evalOperator_ne_null ht w1.inRange hin2
              · simp [word, w1.ofInt_val]
              · rw [ev_setEv, word, ← hw2, w2.ofInt_val]
        cases hq : evalOperator P (.int t) ec (p1.2.setEv p1.1) (p2.2.setEv p2.1) with
        | error f =>
          rw [hq] at hop
          simpa using hop
        | ok q => simp

theorem coerce_ne_null (ht : t ≠ .char) (e : Expr) : e.coerce P (.int t) ≠ .error .nullEv := by
  have h := eval_ne_null (P := P) ht e
  unfold coerce
  rw [kind_int ht]
  cases he : e.evalInternal P (.int t) with
  | error f =>
    rw [he] at h
    simpa [bind, Except.bind] using h
  | ok p =>
    apply ne_null_of_ok
    obtain ⟨r, e'⟩ := p
    cases r with
    | none => exact ⟨_, rfl⟩
    | some v => exact ⟨_, rfl⟩

end Null

section Char

variable {P : DataModel}

/-- What converts a value to `double`. -/
def asDouble : ExprValue → Option ℚ
  | .int w => if w.type = .ulonglong ∧ IntType.longlong.hi < w.val then none
      else some (toDouble w.val)
  | .double d => some d
  | .missing => none

def isArith (ec : BinOp) : Prop := ec = .add ∨ ec = .minus ∨ ec = .mul ∨ ec = .div

instance (ec : BinOp) : Decidable (isArith ec) := inferInstanceAs (Decidable (_ ∨ _))

/-- The value of a tree for a target without a kind: only `~` of integers, signs and
`+ - * /` have one. -/
def Tree.constValue : Tree → ExprValue
  | .lit w => .int w
  | .un .u_plus v1 => ((asDouble v1.constValue).map .double).getD .missing
  | .un .u_minus v1 => ((asDouble v1.constValue).map fun d => .double (-d)).getD .missing
  | .un .bit_neg v1 =>
    match v1.constValue with
    | .int w => if w.type = .char then .missing else .int (.ofInt w.type (-w.val - 1))
    | _ => .missing
  | .bin ec v1 v2 =>
    if isArith ec then
      (((asDouble v1.constValue).bind fun a => (asDouble v2.constValue).bind fun b =>
        doubleOp ec a b).map .double).getD .missing
    else .missing

/-- Every operand of `+ - * /` has a value as a `double`. -/
def Tree.CharSafe : Tree → Prop
  | .lit _ => True
  | .un _ v1 => v1.CharSafe
  | .bin ec v1 v2 => v1.CharSafe ∧ v2.CharSafe ∧
      (isArith ec → (asDouble v1.constValue).isSome ∧ (asDouble v2.constValue).isSome)

theorem coerceEv_asDouble {v : Expr} {ev : ExprValue} (hv : v.ev = some ev) :
    (v.coerceEv P .double).ev = (asDouble ev).map .double := by
  rw [coerceEv_double hv]
  cases ev with
  | int w =>
    simp only [coerceValue, asDouble]
    split_ifs <;> rfl
  | double d => rfl
  | missing => rfl

theorem evalUnOp_const {ec : UnOp} {v1 : Tree} {e : Expr} (h : e.ev = some v1.constValue) :
    (evalUnOp P ec e).1.getD .missing = (Tree.un ec v1).constValue := by
  have hd := coerceEv_asDouble (P := P) h
  cases ec with
  | u_plus =>
    simp only [evalUnOp, h, hd, constValue]
    cases asDouble v1.constValue <;> rfl
  | u_minus =>
    simp only [evalUnOp, h, hd, constValue]
    cases asDouble v1.constValue <;> rfl
  | bit_neg =>
    simp only [constValue]
    cases hc : v1.constValue with
    | int w =>
      rw [hc] at h
      simp only [evalUnOp, h]
      split_ifs <;> rfl
    | double d =>
      rw [hc] at h
      simp only [evalUnOp, h]
      rfl
    | missing =>
      rw [hc] at h
      simp only [evalUnOp, h]
      rfl

theorem inDoubles_const {ec : BinOp} {x1 x2 : ExprValue} {e1 e2 : Expr} (h1 : e1.ev = some x1)
    (h2 : e2.ev = some x2) : inDoubles P ec e1 e2 =
      if (asDouble x1).isSome ∧ (asDouble x2).isSome then
        .ok (((asDouble x1).bind fun a => (asDouble x2).bind fun b => doubleOp ec a b).map .double,
          e1.coerceEv P .double, e2.coerceEv P .double) else .error .nullEv := by
  simp only [inDoubles, coerceEv_asDouble h1, coerceEv_asDouble h2, bind, Except.bind]
  cases asDouble x1 with
  | none => simp [deref]
  | some a =>
    cases asDouble x2 with
    | none => simp [deref]
    | some b => simp [deref, ExprValue.dval, pure, Except.pure]

theorem evalOperator_const {ec : BinOp} {x1 x2 : ExprValue} {e1 e2 : Expr}
    (h1 : e1.ev = some x1) (h2 : e2.ev = some x2) : evalOperator P .const ec e1 e2 =
      if isArith ec then inDoubles P ec e1 e2 else .ok (none, e1, e2) := by
  have hnull := not_null h1 h2
  cases ec <;> simp only [evalOperator, evalBinOp, evalModOp, evalBitOp, if_neg hnull] <;> rfl

/-- An evaluation without a kind gives the value of the tree, or dereferences a null value. -/
theorem eval_const : ∀ e : Tree,
    (e.CharSafe → ∃ e', e.expr.evalInternal P .const = .ok (some e.constValue, e')) ∧
    (¬e.CharSafe → e.expr.evalInternal P .const = .error .nullEv)
  | .lit w => ⟨fun _ => ⟨_, rfl⟩, fun h => absurd trivial h⟩
  | .un ec v1 => by
    obtain ⟨hsafe, hderef⟩ := eval_const v1
    simp only [Tree.CharSafe, expr, evalInternal, bind, Except.bind]
    constructor
    · intro h
      obtain ⟨e1, h1⟩ := hsafe h
      rw [h1]
      simp only [evalKind, pure, Except.pure]
      rw [evalUnOp_const (P := P) (ev_setEv _ e1)]
      exact ⟨_, rfl⟩
    · intro h
      rw [hderef h]
  | .bin ec v1 v2 => by
    obtain ⟨hsafe1, hderef1⟩ := eval_const v1
    obtain ⟨hsafe2, hderef2⟩ := eval_const v2
    simp only [Tree.CharSafe, expr, evalInternal, bind, Except.bind]
    by_cases hc1 : v1.CharSafe
    · by_cases hc2 : v2.CharSafe
      · obtain ⟨e1, h1⟩ := hsafe1 hc1
        obtain ⟨e2, h2⟩ := hsafe2 hc2
        simp only [hc1, hc2, true_and, h1, h2]
        rw [evalOperator_const (ev_setEv _ e1) (ev_setEv _ e2)]
        by_cases hec : isArith ec
        · rw [if_pos hec, inDoubles_const (ev_setEv _ e1) (ev_setEv _ e2)]
          simp only [hec, true_implies]
          constructor
          · intro hboth
            rw [if_pos hboth]
            simp only [evalKind, pure, Except.pure, constValue, if_pos hec]
            exact ⟨_, rfl⟩
          · intro hnot
            rw [if_neg hnot]
        · rw [if_neg hec]
          simp only [hec, false_implies, not_true_eq_false]
          refine ⟨fun _ => ?_, trivial⟩
          simp only [evalKind, pure, Except.pure, constValue, if_neg hec]
          exact ⟨_, rfl⟩
      · obtain ⟨e1, h1⟩ := hsafe1 hc1
        simp only [hc2, h1, hderef2 hc2, false_and, and_false, false_implies, implies_true,
          and_self]
    · simp only [hc1, hderef1 hc1, false_and, false_implies, implies_true, and_self]

theorem coerce_char_null (e : Tree) :
    e.expr.coerce P (.int .char) ≠ .error .nullEv ↔ e.CharSafe := by
  obtain ⟨hsafe, hderef⟩ := eval_const (P := P) e
  unfold coerce
  by_cases h : e.CharSafe
  · obtain ⟨e', he⟩ := hsafe h
    refine iff_of_true ?_ h
    simp only [ExprType.kind, he, bind, Except.bind]
    exact ne_null_of_ok ⟨_, rfl⟩
  · refine iff_of_false ?_ h
    simp [ExprType.kind, hderef h, bind, Except.bind]

end Char

/-- Constant folding, for a target of the integer types and for `char`. -/
theorem fold_iff (P : DataModel) (t : IntType) (e : Tree) :
    (t ≠ .char → e.ShiftsIn t → (e.Sound P t → FoldsExactly P t e) ∧
      ((∀ s ∈ e.subtrees, FoldsExactly P t s) ↔ e.Sound P t)) ∧
    (e.expr.coerce P (.int t) ≠ .error .nullEv ↔ (t = .char → e.CharSafe)) := by
  constructor
  · intro ht hshift
    have hfolds : ∀ s : Tree, s.ShiftsIn t → s.Sound P t → FoldsExactly P t s := by
      intro s hs hsound
      obtain ⟨e', heval⟩ := eval_sound ht hs hsound
      exact foldsExactly_of_eval ht heval
    refine ⟨hfolds e hshift, sound_of_foldsExactly ht hshift, fun hsound s hs => ?_⟩
    exact hfolds s (hshift.sub fun r hr => subtrees_trans hr hs) (hsound.sub hs)
  · by_cases ht : t = .char
    · subst ht
      rw [coerce_char_null]
      exact ⟨fun h _ => h, fun h => h rfl⟩
    · exact iff_of_true (coerce_ne_null ht e.expr) fun hc => absurd hc ht

/-- `3 - 5`. -/
def threeMinusFive : Tree := .bin .minus (.lit (.ofInt .ulonglong 3)) (.lit (.ofInt .ulonglong 5))

theorem fold_threeMinusFive :
    ∃ w e', threeMinusFive.expr.coerce .lp64 (.int .long) = .ok (some (.int w), e') ∧
      w.type = .long ∧ threeMinusFive.exact .long = some w.val := by
  have hshift : threeMinusFive.ShiftsIn .long := by
    intro ec v1 v2 hmem hec
    rcases hec with rfl | rfl <;> simp [threeMinusFive, subtrees] at hmem
  have hsound : threeMinusFive.Sound .lp64 .long := by
    refine ⟨trivial, trivial, fun a b ha hb => ?_⟩
    obtain rfl : 3 = a := some.inj ha
    obtain rfl : 5 = b := some.inj hb
    exact ⟨by decide, fun _ => by decide⟩
  have hall : threeMinusFive.AllIn .long := allIn_of_exactIn (v := -2) (by decide)
  exact (((fold_iff .lp64 .long threeMinusFive).1 (by decide) hshift).1 hsound).1 hall

/-- `7 % 3`. -/
def sevenModThree : Tree := .bin .mod (.lit (.ofInt .ulonglong 7)) (.lit (.ofInt .ulonglong 3))

/-- The remainder of a `short` is rejected. -/
theorem mod_short_rejected :
    (∀ s ∈ sevenModThree.subtrees, ∃ v, s.exact .short = some v ∧ IntType.short.Holds v) ∧
      sevenModThree.exact .short = some 1 ∧
      (sevenModThree.expr.coerce .lp64 (.int .short)).map Prod.fst = .ok none :=
  ⟨allIn_of_exactIn (v := 1) (by decide), by decide, by decide⟩

end Atcd.Idl
