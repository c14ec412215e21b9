import Mathlib
/-!
# Machine words in memory

A word of `n` bytes lies in memory least significant byte first or last,
depending on the host (`Endian`). `store` and `load` go between the number and
its bytes; a list of words is stored word after word and walked in steps of the
word size (`chunks`).

Results:
* `load_store`, `store_load`: a stored word is read back, and conversely.
* `leBytes_reverse`: a word whose bits are those of another one with the bytes
  in the opposite order is stored as the reversed bytes.
* `chunks_flatMap`: walking stored words visits the bytes of each word.
-/
namespace Atcd.Core

open List Nat

/-- Byte order of the host. -/
inductive Endian where
  | little | big
  deriving DecidableEq, Repr

/-- The `n` bytes of `v`, least significant first. -/
def leBytes : Nat → Nat → List UInt8
  | 0, _ => []
  | n + 1, v => UInt8.ofNat v :: leBytes n (v / 256)

/-- The number with these bytes, least significant first. -/
def leNat : List UInt8 → Nat
  | [] => 0
  | b :: bs => b.toNat + 256 * leNat bs

/-- The bytes a host writes for the `n`-byte word `v`. -/
def store (e : Endian) (n v : Nat) : List UInt8 :=
  match e with
  | .little => leBytes n v
  | .big => (leBytes n v).reverse

/-- The word a host reads from these bytes. -/
def load (e : Endian) (bs : List UInt8) : Nat :=
  match e with
  | .little => leNat bs
  | .big => leNat bs.reverse

/-- Walk `n` consecutive chunks of `size` elements. -/
def chunks {α β : Type*} (f : List α → β) (size : Nat) : Nat → List α → List β
  | 0, _ => []
  | n + 1, bs => f (bs.take size) :: chunks f size n (bs.drop size)

@[simp] theorem length_leBytes (n v : Nat) : (leBytes n v).length = n := by
  induction n generalizing v with
  | zero => rfl
  | succ n ih => simp [leBytes, ih]

@[simp] theorem length_store (e : Endian) (n v : Nat) : (store e n v).length = n := by
  cases e <;> simp [store]

theorem leNat_leBytes (n v : Nat) : leNat (leBytes n v) = v % 256 ^ n := by
  induction n generalizing v with
  | zero => simp [leNat, leBytes, mod_one]
  | succ n ih =>
    rw [leBytes, leNat, ih, UInt8.toNat_ofNat', show 256 ^ (n + 1) = 256 * 256 ^ n from pow_succ']
    exact mod_mul.symm

/-- **Round trip of one word.** -/
theorem load_store (e : Endian) {n v : Nat} (h : v < 256 ^ n) : load e (store e n v) = v := by
  cases e <;> simp [load, store, leNat_leBytes, mod_eq_of_lt h]

theorem leBytes_leNat {n : Nat} {bs : List UInt8} (h : bs.length = n) :
    leBytes n (leNat bs) = bs := by
  induction bs generalizing n with
  | nil => subst h; rfl
  | cons b bs ih =>
    subst h
    have hb := b.toNat_lt
    have hv : (b.toNat + 256 * leNat bs) / 256 = leNat bs := by omega
    have hlow : UInt8.ofNat (b.toNat + 256 * leNat bs) = b := by
      apply UInt8.toNat_inj.mp
      rw [UInt8.toNat_ofNat']
      omega
    rw [length_cons, leNat, leBytes, hv, hlow, ih rfl]

theorem store_load (e : Endian) {n : Nat} {bs : List UInt8} (h : bs.length = n) :
    store e n (load e bs) = bs := by
  cases e with
  | little => exact leBytes_leNat h
  | big =>
    rw [store, load, leBytes_leNat (by simpa using h), reverse_reverse]

theorem load_lt (e : Endian) (bs : List UInt8) : load e bs < 256 ^ bs.length := by
  have hle : ∀ cs : List UInt8, leNat cs < 256 ^ cs.length := by
    intro cs
    induction cs with
    | nil => simp [leNat]
    | cons c cs ih =>
      have hc := c.toNat_lt
      rw [leNat, length_cons, show 256 ^ (cs.length + 1) = 256 * 256 ^ cs.length from pow_succ']
      omega
  cases e with
  | little => exact hle bs
  | big => simpa [load] using hle bs.reverse

theorem getElem_leBytes {n v k : Nat} (h : k < (leBytes n v).length) :
    (leBytes n v)[k] = UInt8.ofNat (v / 256 ^ k) := by
  induction n generalizing v k with
  | zero => simp at h
  | succ n ih =>
    cases k with
    | zero => simp [leBytes]
    | succ k =>
      simp only [leBytes, getElem_cons_succ]
      rw [ih, Nat.div_div_eq_div_mul, pow_succ']

/-- Two bytes taken out of words agree when the bits of the words there do. -/
theorem byte_ext {v w i j : Nat} (h : ∀ b < 8, v.testBit (8 * i + b) = w.testBit (8 * j + b)) :
    UInt8.ofNat (v / 256 ^ i) = UInt8.ofNat (w / 256 ^ j) := by
  apply UInt8.toNat_inj.mp
  rw [UInt8.toNat_ofNat', UInt8.toNat_ofNat']
  apply eq_of_testBit_eq
  intro b
  have hp : ∀ k, 256 ^ k = 2 ^ (8 * k) := fun k => by rw [Nat.pow_mul]
  rw [testBit_mod_two_pow, testBit_mod_two_pow, hp, hp, testBit_div_two_pow,
    testBit_div_two_pow]
  by_cases hb : b < 8
  · have := h b hb
    rw [Nat.add_comm b, Nat.add_comm b, this]
  · simp [hb]

theorem leBytes_reverse {n v w : Nat}
    (h : ∀ i < 8 * n, w.testBit i = v.testBit (8 * (n - 1 - i / 8) + i % 8)) :
    leBytes n w = (leBytes n v).reverse := by
  apply ext_getElem (by simp)
  intro k hk _
  rw [length_leBytes] at hk
  rw [getElem_reverse, getElem_leBytes, getElem_leBytes, length_leBytes]
  apply byte_ext
  intro b hb
  rw [h (8 * k + b) (by omega)]
  congr 1
  omega

theorem store_reverse (e : Endian) {n v w : Nat}
    (h : ∀ i < 8 * n, w.testBit i = v.testBit (8 * (n - 1 - i / 8) + i % 8)) :
    store e n w = (store e n v).reverse := by
  cases e <;> simp [store, leBytes_reverse h]

/-- Walking words that were written one after the other visits each of them;
what follows the last one is not looked at. -/
theorem chunks_flatMap {α β γ : Type*} (f : List α → β) (enc : γ → List α) (size : Nat)
    (xs : List γ) (rest : List α) (henc : ∀ x ∈ xs, (enc x).length = size) :
    chunks f size xs.length (xs.flatMap enc ++ rest) = xs.map fun x => f (enc x) := by
  induction xs with
  | nil => rfl
  | cons x xs ih =>
    have hx := henc x (by simp)
    have ih := ih fun y hy => henc y (by simp [hy])
    simp only [flatMap_cons, length_cons, map_cons, chunks, append_assoc]
    rw [← hx, take_left, drop_left, hx, ih]

theorem length_flatMap_const {α γ : Type*} (enc : γ → List α) (size : Nat) (xs : List γ)
    (henc : ∀ x ∈ xs, (enc x).length = size) : (xs.flatMap enc).length = size * xs.length := by
  induction xs with
  | nil => simp
  | cons x xs ih =>
    rw [flatMap_cons, length_append, henc x (by simp),
      ih fun y hy => henc y (by simp [hy]), length_cons, mul_succ, Nat.add_comm]

end Atcd.Core
