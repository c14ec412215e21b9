import Atcd.Core.Rounding
/-!
# Constant expressions of the IDL compiler (`TAO_IDL/ast/ast_expression.cpp`)

An `AST_Expression` is a literal or an operator over one or two expressions, and caches its
value. `coerce` evaluates the tree for a target type: the target picks an `EvalKind`, every
subexpression is evaluated for that kind, set as the operand's value and coerced to the type
the operator works in, and the operator's value is converted to the kind's type again.

`+ - * /` work in `unsigned long long` or `long long` for these targets and in `double` for
the others; `%` is there for four targets; the bit operators work in the target's own type;
unary `+` and `-` work in `double`. Null pointers stand for failures, a value without a type
(`EV_none`) for a failure below a target without a kind.

Results:
- `evalKind_typed`: what comes out of an evaluation for a type has that type.

A `double` is a rational of 53 significant bits without exponent range. A shift takes its
amount modulo the width of the promoted operand. Symbols and the literals and targets of
other types (`bool`, `octet`, `wchar`, floating point, strings) are left out.
-/
namespace Atcd.Idl

/-- `long` of the compiler's host: 32 or 64 bits. -/
inductive DataModel
  | ilp32
  | lp64
  deriving DecidableEq, Repr

def DataModel.longMax : DataModel → Int
  | .ilp32 => 0x7FFFFFFF
  | .lp64 => 0x7FFFFFFFFFFFFFFF

/-- The integer types of a value. mirrors TAO/TAO_IDL/include/ast_expression.h:125-156 -/
inductive IntType
  | short
  | ushort
  | long
  | ulong
  | longlong
  | ulonglong
  | char
  deriving DecidableEq, Repr

namespace IntType

def bits : IntType → Nat
  | .short | .ushort => 16
  | .long | .ulong => 32
  | .longlong | .ulonglong => 64
  | .char => 8

/-- Width in which the host shifts a value of the type. -/
def promoted (t : IntType) : Nat := max t.bits 32

/-- mirrors ACE/ace/Basic_Types.h:655-667 -/
def lo : IntType → Int
  | .short => -0x8000
  | .long => -0x80000000
  | .longlong => -0x8000000000000000
  | .char => -0x80
  | .ushort | .ulong | .ulonglong => 0

/-- mirrors Basic_Types.h:655-667 -/
def hi : IntType → Int
  | .short => 0x7FFF
  | .ushort => 0xFFFF
  | .long => 0x7FFFFFFF
  | .ulong => 0xFFFFFFFF
  | .longlong => 0x7FFFFFFFFFFFFFFF
  | .ulonglong => 0xFFFFFFFFFFFFFFFF
  | .char => 0x7F

def Holds (t : IntType) (v : Int) : Prop := t.lo ≤ v ∧ v ≤ t.hi

instance (t : IntType) (v : Int) : Decidable (t.Holds v) :=
  inferInstanceAs (Decidable (_ ∧ _))

def wrap (t : IntType) (v : Int) : Int := (v - t.lo) % 2 ^ t.bits + t.lo

theorem hi_eq (t : IntType) : t.hi = t.lo + 2 ^ t.bits - 1 := by cases t <;> decide

theorem wrap_holds (t : IntType) (v : Int) : t.Holds (t.wrap v) := by
  unfold Holds wrap
  rw [hi_eq]
  omega

theorem wrap_of_holds {t : IntType} {v : Int} (h : t.Holds v) : t.wrap v = v := by
  obtain ⟨hlo, hhi⟩ := h
  rw [hi_eq] at hhi
  unfold wrap
  rw [Int.emod_eq_of_lt (by omega) (by omega)]
  omega

end IntType

/-- A value of an integer type. -/
structure Word where
  type : IntType
  val : Int
  inRange : type.Holds val
  deriving DecidableEq, Repr

def Word.ofInt (t : IntType) (v : Int) : Word := ⟨t, t.wrap v, t.wrap_holds v⟩

@[simp] theorem Word.type_ofInt (t : IntType) (v : Int) : (Word.ofInt t v).type = t := rfl

theorem Word.val_ofInt {t : IntType} {v : Int} (h : t.Holds v) : (Word.ofInt t v).val = v :=
  IntType.wrap_of_holds h

theorem Word.ofInt_val (w : Word) : Word.ofInt w.type w.val = w := by
  obtain ⟨t, v, h⟩ := w
  simp [Word.ofInt, IntType.wrap_of_holds h]

/-- mirrors ast_expression.h:159-184 (`AST_ExprValue`) -/
inductive ExprValue
  | int (w : Word)
  | double (d : ℚ)
  /-- `EV_none` -/
  | missing
  deriving DecidableEq

/-- The members of the union; read only where the type is the member's. -/
def ExprValue.intval : ExprValue → Int
  | .int w => w.val
  | _ => 0

def ExprValue.dval : ExprValue → ℚ
  | .double d => d
  | _ => 0

inductive ExprType
  | int (t : IntType)
  | double
  deriving DecidableEq, Repr

/-- Whether a value is of a type. -/
def ExprValue.hasType : ExprValue → ExprType → Bool
  | .int w, .int t => w.type = t
  | .double _, .double => true
  | _, _ => false

inductive EvalKind
  | const
  /-- `EK_short` to `EK_ulonglong` -/
  | int (t : IntType)
  deriving DecidableEq, Repr

/-- The kind that `coerce` evaluates for; none is there for `char`. -/
def ExprType.kind : ExprType → EvalKind
  | .int .char => .const
  | .int t => .int t
  | .double => .const

def toDouble (x : ℚ) : ℚ := Core.Rounding.round 53 x

/-- The upper bound that a `double` is compared with: of `long`, the host's `LONG_MAX`. -/
def doubleHi (P : DataModel) (t : IntType) : ℚ :=
  toDouble (if t = .long then P.longMax else t.hi)

/-- mirrors TAO/TAO_IDL/ast/ast_expression.cpp:503-1636 -/
def coerceValue (P : DataModel) : ExprValue → ExprType → Option ExprValue
  | .int w, .int t => if t.Holds w.val then some (.int (.ofInt t w.val)) else none
  | .int w, .double =>
    if w.type = .ulonglong ∧ IntType.longlong.hi < w.val then none
    else some (.double (toDouble w.val))
  | .double d, .int t =>
    if doubleHi P t < d ∨ d < t.lo then none
    else some (.int (.ofInt t (Core.Rounding.trunc d)))
  | .double d, .double => some (.double d)
  | .missing, _ => none

/-- A copy of a value, or a new one without a type, for a kind.
mirrors ast_expression.cpp:1702-1770 -/
def evalKind (P : DataModel) (ek : EvalKind) (ev : Option ExprValue) : Option ExprValue :=
  match ek with
  | .const => some (ev.getD .missing)
  | .int t => coerceValue P (ev.getD .missing) (.int t)

inductive UnOp
  | u_plus
  | u_minus
  | bit_neg
  deriving DecidableEq, Repr

inductive BinOp
  | add
  | minus
  | mul
  | div
  | mod
  | or
  | xor
  | and
  | left
  | right
  deriving DecidableEq, Repr

/-- An expression with the value that each node caches. -/
inductive Expr
  | lit (ev : Option ExprValue)
  | un (ev : Option ExprValue) (ec : UnOp) (v1 : Expr)
  | bin (ev : Option ExprValue) (ec : BinOp) (v1 v2 : Expr)

namespace Expr

def ev : Expr → Option ExprValue
  | .lit ev | .un ev _ _ | .bin ev _ _ _ => ev

/-- mirrors ast_expression.cpp:3278-3283 -/
def setEv (new_ev : Option ExprValue) : Expr → Expr
  | .lit _ => .lit new_ev
  | .un _ ec v1 => .un new_ev ec v1
  | .bin _ ec v1 v2 => .bin new_ev ec v1 v2

@[simp] theorem ev_setEv (ev : Option ExprValue) (e : Expr) : (e.setEv ev).ev = ev := by
  cases e <;> rfl

end Expr

inductive Fault
  /-- A null `ev ()` is dereferenced. -/
  | nullEv
  /-- The host's division traps: the least number by -1. -/
  | divide
  deriving DecidableEq, Repr

/-- The end of `coerce`: a copy of the value, converted if it is of another type.
mirrors ast_expression.cpp:2651-2732 -/
def convert (P : DataModel) (t : ExprType) (ev : ExprValue) : Option ExprValue :=
  if ev = .missing then none
  else if ev.hasType t then some ev
  else coerceValue P ev t

/-- `set_ev (coerce (t))` of an operand that has a value. -/
def Expr.coerceEv (P : DataModel) (t : ExprType) (v : Expr) : Expr :=
  v.setEv ((evalKind P t.kind v.ev).bind (convert P t))

def deref : Option ExprValue → Except Fault ExprValue
  | some ev => .ok ev
  | none => .error .nullEv

/-- What an operator computes from operands of an integer type, before the result is stored
in that type; none for a division by zero. -/
def intOp (t : IntType) (ec : BinOp) (a b : Int) : Except Fault (Option Int) :=
  match ec with
  | .add => .ok (some (a + b))
  | .minus => .ok (some (a - b))
  | .mul => .ok (some (a * b))
  | .div =>
    if b = 0 then .ok none
    else if a = t.lo ∧ b = -1 then .error .divide
    else .ok (some (a.tdiv b))
  | .mod =>
    if b = 0 then .ok none
    else if a = t.lo ∧ b = -1 then .error .divide
    else .ok (some (a.tmod b))
  | .or => .ok (some (a.lor b))
  | .xor => .ok (some (a.xor b))
  | .and => .ok (some (a.land b))
  | .left => .ok (some (a * 2 ^ (b % t.promoted).toNat))
  | .right => .ok (some (a / 2 ^ (b % t.promoted).toNat))

def doubleOp (ec : BinOp) (a b : ℚ) : Option ℚ :=
  match ec with
  | .add => some (toDouble (a + b))
  | .minus => some (toDouble (a - b))
  | .mul => some (toDouble (a * b))
  | .div => if b = 0 then none else some (toDouble (a / b))
  | _ => none

/-- The value of an operator and the operands that its evaluation leaves. -/
abbrev Operands := Option ExprValue × Expr × Expr

/-- The branch of an evaluation in an integer type. -/
def inInts (P : DataModel) (t : IntType) (ec : BinOp) (v1 v2 : Expr) : Except Fault Operands := do
  let v1 := v1.coerceEv P (.int t)
  let v2 := v2.coerceEv P (.int t)
  let a ← deref v1.ev
  let b ← deref v2.ev
  let r ← intOp t ec a.intval b.intval
  return (r.map fun r => .int (.ofInt t r), v1, v2)

/-- The branch of an evaluation in `double`. -/
def inDoubles (P : DataModel) (ec : BinOp) (v1 v2 : Expr) : Except Fault Operands := do
  let v1 := v1.coerceEv P .double
  let v2 := v2.coerceEv P .double
  let a ← deref v1.ev
  let b ← deref v2.ev
  return ((doubleOp ec a.dval b.dval).map .double, v1, v2)

/-- From the check of the operands' values on.
mirrors ast_expression.cpp:1785-1915 -/
def evalBinOp (P : DataModel) (ek : EvalKind) (ec : BinOp) (v1 v2 : Expr) :
    Except Fault Operands :=
  if v1.ev = none ∨ v2.ev = none then .ok (none, v1, v2)
  else
    match ek with
    | .int .ulonglong => inInts P .ulonglong ec v1 v2
    | .int .longlong => inInts P .longlong ec v1 v2
    | _ => inDoubles P ec v1 v2

/-- mirrors ast_expression.cpp:1916-2014 -/
def evalModOp (P : DataModel) (ek : EvalKind) (ec : BinOp) (v1 v2 : Expr) :
    Except Fault Operands :=
  if v1.ev = none ∨ v2.ev = none then .ok (none, v1, v2)
  else
    match ek with
    | .int .ulonglong => inInts P .ulonglong ec v1 v2
    | .int .longlong => inInts P .longlong ec v1 v2
    | .int .ulong => inInts P .ulong ec v1 v2
    | .int .long => inInts P .long ec v1 v2
    | _ => .ok (none, v1, v2)

/-- mirrors ast_expression.cpp:2019-2330 -/
def evalBitOp (P : DataModel) (ek : EvalKind) (ec : BinOp) (v1 v2 : Expr) :
    Except Fault Operands :=
  if v1.ev = none ∨ v2.ev = none then .ok (none, v1, v2)
  else
    match ek with
    | .const | .int .char => .ok (none, v1, v2)
    | .int t => inInts P t ec v1 v2

/-- mirrors ast_expression.cpp:2335-2458 -/
def evalUnOp (P : DataModel) (ec : UnOp) (v1 : Expr) : Option ExprValue × Expr :=
  match v1.ev, ec with
  | none, _ => (none, v1)
  | some _, .u_plus =>
    let v1 := v1.coerceEv P .double
    (v1.ev.map fun ev => .double ev.dval, v1)
  | some _, .u_minus =>
    let v1 := v1.coerceEv P .double
    (v1.ev.map fun ev => .double (-ev.dval), v1)
  | some (.int w), .bit_neg =>
    (if w.type = .char then none else some (.int (.ofInt w.type (-w.val - 1))), v1)
  | some _, .bit_neg => (none, v1)

def evalOperator (P : DataModel) (ek : EvalKind) (ec : BinOp) (v1 v2 : Expr) :
    Except Fault Operands :=
  match ec with
  | .add | .minus | .mul | .div => evalBinOp P ek ec v1 v2
  | .mod => evalModOp P ek ec v1 v2
  | .or | .xor | .and | .left | .right => evalBitOp P ek ec v1 v2

namespace Expr

/-- mirrors ast_expression.cpp:2736-2781 -/
def evalInternal (P : DataModel) (ek : EvalKind) : Expr → Except Fault (Option ExprValue × Expr)
  | .lit none => .ok (none, .lit none)
  | .lit (some ev) => .ok (evalKind P ek (some ev), .lit (some ev))
  | .un (some ev) ec v1 => .ok (evalKind P ek (some ev), .un (some ev) ec v1)
  | .un none ec v1 => do
    let p ← v1.evalInternal P ek
    let q := evalUnOp P ec (p.2.setEv p.1)
    return (evalKind P ek q.1, .un q.1 ec q.2)
  | .bin (some ev) ec v1 v2 => .ok (evalKind P ek (some ev), .bin (some ev) ec v1 v2)
  | .bin none ec v1 v2 => do
    let p1 ← v1.evalInternal P ek
    let p2 ← v2.evalInternal P ek
    let q ← evalOperator P ek ec (p1.2.setEv p1.1) (p2.2.setEv p2.1)
    return (evalKind P ek q.1, .bin q.1 ec q.2.1 q.2.2)

/-- mirrors ast_expression.cpp:2598-2733 -/
def coerce (P : DataModel) (t : ExprType) (e : Expr) : Except Fault (Option ExprValue × Expr) := do
  let p ← e.evalInternal P t.kind
  match p.1 with
  | none => return (none, p.2)
  | some ev => return (convert P t ev, p.2.setEv (some ev))

end Expr

section Typed

variable {P : DataModel} {t : IntType}

theorem coerceValue_typed {ev v : ExprValue} (h : coerceValue P ev (.int t) = some v) :
    ∃ w : Word, v = .int w ∧ w.type = t := by
  cases ev with
  | int w =>
    simp only [coerceValue, Option.ite_none_right_eq_some, Option.some.injEq] at h
    exact ⟨_, h.2.symm, rfl⟩
  | double d =>
    simp only [coerceValue, Option.ite_none_left_eq_some, Option.some.injEq] at h
    exact ⟨_, h.2.symm, rfl⟩
  | missing => simp [coerceValue] at h

theorem evalKind_typed {ev : Option ExprValue} {v : ExprValue}
    (h : evalKind P (.int t) ev = some v) : ∃ w : Word, v = .int w ∧ w.type = t :=
  coerceValue_typed h

@[simp] theorem evalKind_none : evalKind P (.int t) none = none := rfl

theorem coerceValue_same (w : Word) : coerceValue P (.int w) (.int w.type) = some (.int w) := by
  simp [coerceValue, w.inRange, w.ofInt_val]

theorem kind_int (h : t ≠ .char) : (ExprType.int t).kind = .int t := by
  cases t <;> first | rfl | exact absurd rfl h

theorem convert_same (w : Word) : convert P (.int w.type) (.int w) = some (.int w) := by
  simp [convert, ExprValue.hasType]

theorem coerceEv_int {v : Expr} {w : Word} (hv : v.ev = some (.int w)) (hw : w.type ≠ .char) :
    (v.coerceEv P (.int w.type)).ev = some (.int w) := by
  simp [Expr.coerceEv, hv, kind_int hw, evalKind, coerceValue_same, convert_same]

theorem coerceEv_double {v : Expr} {ev : ExprValue} (hv : v.ev = some ev) :
    (v.coerceEv P .double).ev = coerceValue P ev .double := by
  cases ev <;> simp [Expr.coerceEv, hv, ExprType.kind, evalKind, convert, coerceValue,
    ExprValue.hasType]

end Typed

end Atcd.Idl
