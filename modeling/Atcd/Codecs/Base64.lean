import Mathlib
/-!
# Base64 (`ACE/ace/Codecs.cpp`)

What `encode` and `decode` write goes to consecutive places of a new buffer, so a function
writes inside it as long as it writes no more bytes than the buffer has. Sizes are `size_t`
of `w` bits, `bits` is an `int` that holds 24 bits at most.

Results:
- `encode_eq`: the encoder's loop writes the text of the groups of three bytes.
- `base64_roundTrip_iff`: decoding gives the bytes back, with no write outside a buffer, as long
  as the sizes of the buffers do not wrap.
-/
namespace Atcd.Codecs.Base64

open List

/-- mirrors ACE/ace/Codecs.cpp:14-16, with the character that ends it -/
def alphabet : List UInt8 :=
  ("ABCDEFGHIJKLMNOPQRSTUVWXYZabcdefghijklmnopqrstuvwxyz0123456789+/".toList.map
    fun c => UInt8.ofNat c.toNat) ++ [0]

/-- `=` -/
def pad : UInt8 := 61

def newline : UInt8 := 10

def maxColumns : Nat := 72

/-- The tables from a character to its number, and of the characters that have one.
mirrors Codecs.cpp:215-228 -/
def tables : (UInt8 → UInt8) × (UInt8 → UInt8) :=
  (List.range alphabet.length).foldl (fun t i =>
    (Function.update t.1 (alphabet.getD i 0) (UInt8.ofNat i), Function.update t.2 (alphabet.getD i 0) 1))
    (fun _ => 0, fun _ => 0)

def decoder : UInt8 → UInt8 := tables.1

def member : UInt8 → UInt8 := tables.2

def char (n : Nat) : UInt8 := alphabet.getD n 0

/-! ## Encoding -/

/-- What is written, and the loop's variables. -/
structure Encoder where
  result : List UInt8
  charCount : Nat
  bits : Nat
  cols : Nat

/-- mirrors Codecs.cpp:57-82 -/
def encodeByte (isChunked : Bool) (e : Encoder) (byte : UInt8) : Encoder :=
  let bits := e.bits + byte.toNat
  if e.charCount + 1 = 3 then
    let result := e.result ++ [char (bits >>> 18), char (bits >>> 12 &&& 0x3f),
      char (bits >>> 6 &&& 0x3f), char (bits &&& 0x3f)]
    if e.cols + 4 = maxColumns then ⟨if isChunked then result ++ [newline] else result, 0, 0, 0⟩
    else ⟨result, 0, 0, e.cols + 4⟩
  else ⟨e.result, e.charCount + 1, bits <<< 8, e.cols⟩

/-- mirrors Codecs.cpp:84-101 -/
def Encoder.padded (e : Encoder) : Encoder :=
  if e.charCount ≠ 0 then
    let bits := e.bits <<< (16 - 8 * e.charCount)
    let result := e.result ++ [char (bits >>> 18), char (bits >>> 12 &&& 0x3f)]
    let last := if e.charCount = 1 then [pad, pad] else [char (bits >>> 6 &&& 0x3f), pad]
    { e with result := result ++ last, cols := e.cols + 2 + 2 }
  else e

/-- The bytes in front of the one that ends the result. mirrors Codecs.cpp:33-109 -/
def encode (isChunked : Bool) (input : List UInt8) : List UInt8 :=
  let e := (input.foldl (encodeByte isChunked) ⟨[], 0, 0, 0⟩).padded
  if 0 < e.cols ∧ isChunked then e.result ++ [newline] else e.result

/-- The size of the result. mirrors Codecs.cpp:47-49 -/
def encodeLength (w inputLen : Nat) : Nat :=
  let length := (inputLen + 2) % 2 ^ w / 3 * 4 % 2 ^ w
  let numLines := (length / maxColumns + 1) % 2 ^ w
  (length + (numLines + 1) % 2 ^ w) % 2 ^ w

/-! ## Decoding -/

def isspace (c : UInt8) : Bool := c = 32 ∨ 9 ≤ c ∧ c ≤ 13

/-- The condition of the loops over the input. -/
def accepted (c : UInt8) : Bool := c ≠ 0 ∧ (member c = 1 ∨ c = pad ∨ isspace c)

/-- mirrors Codecs.cpp:111-125 -/
def length (w : Nat) (input : List UInt8) : Nat :=
  (((input.takeWhile accepted).length + 3) % 2 ^ w / 4 * 3 + 1) % 2 ^ w

structure Decoder where
  result : List UInt8
  charCount : Nat
  bits : Nat

/-- mirrors Codecs.cpp:158-172 -/
def decodeChar (d : Decoder) (c : UInt8) : Decoder :=
  let bits := d.bits + (decoder c).toNat
  if d.charCount + 1 = 4 then
    ⟨d.result ++ [UInt8.ofNat (bits >>> 16), UInt8.ofNat (bits >>> 8 &&& 0xff),
      UInt8.ofNat (bits &&& 0xff)], 0, 0⟩
  else ⟨d.result, d.charCount + 1, bits <<< 6⟩

/-- The loop, and whether it went to the end. mirrors Codecs.cpp:151-173 -/
def decodeLoop : List UInt8 → Decoder → Decoder × Bool
  | [], d => (d, true)
  | c :: cs, d =>
    if c = pad then (d, false)
    else if member c = 0 then decodeLoop cs d
    else decodeLoop cs (decodeChar d c)

/-- The bytes behind the loop's. mirrors Codecs.cpp:175-212 -/
def Decoder.finish (d : Decoder) (ended : Bool) : Option (List UInt8) :=
  if ended then if d.charCount ≠ 0 then none else some d.result
  else match d.charCount with
    | 1 => none
    | 2 => some (d.result ++ [UInt8.ofNat (d.bits >>> 10)])
    | 3 => some (d.result ++ [UInt8.ofNat (d.bits >>> 16), UInt8.ofNat (d.bits >>> 8 &&& 0xff)])
    | _ => some d.result

/-- mirrors Codecs.cpp:127-213 -/
def decode (input : List UInt8) : Option (List UInt8) :=
  let (d, ended) := decodeLoop (input.takeWhile accepted) ⟨[], 0, 0⟩
  d.finish ended

/-! ## The text of the groups -/

theorem char_spec {n : Nat} (h : n < 64) :
    (member (char n) = 1 ∧ (decoder (char n)).toNat = n) ∧ char n ≠ pad ∧ char n ≠ 0 := by
  revert n
  decide +kernel

/-- The four characters of a number of 24 bits. -/
def quad (n : Nat) : List UInt8 :=
  [char (n >>> 18), char (n >>> 12 &&& 0x3f), char (n >>> 6 &&& 0x3f), char (n &&& 0x3f)]

/-- The 24 bits of three bytes. -/
def group (a b c : UInt8) : Nat := a.toNat * 65536 + b.toNat * 256 + c.toNat

def line (isChunked : Bool) : List UInt8 := if isChunked then [newline] else []

/-- The text of the bytes behind column `cols`. -/
def text (isChunked : Bool) : Nat → List UInt8 → List UInt8
  | cols, a :: b :: c :: rest =>
    quad (group a b c) ++
      if cols + 4 = maxColumns then line isChunked ++ text isChunked 0 rest
      else text isChunked (cols + 4) rest
  | _, [a, b] => (quad (group a b 0)).take 3 ++ pad :: line isChunked
  | _, [a] => (quad (group a 0 0)).take 2 ++ pad :: pad :: line isChunked
  | cols, [] => if 0 < cols then line isChunked else []

theorem and_63 (n : Nat) : n &&& 0x3f = n % 64 := Nat.and_two_pow_sub_one_eq_mod n 6

theorem and_255 (n : Nat) : n &&& 0xff = n % 256 := Nat.and_two_pow_sub_one_eq_mod n 8

variable {isChunked : Bool}

theorem encodeByte_three (r : List UInt8) (cols : Nat) (a b c : UInt8) :
    [a, b, c].foldl (encodeByte isChunked) ⟨r, 0, 0, cols⟩ = if cols + 4 = maxColumns then
        ⟨r ++ quad (group a b c) ++ line isChunked, 0, 0, 0⟩
      else ⟨r ++ quad (group a b c), 0, 0, cols + 4⟩ := by
  have hbits : (a.toNat <<< 8 + b.toNat) <<< 8 + c.toNat = group a b c := by
    simp only [Nat.shiftLeft_eq, group]
    omega
  cases isChunked <;> simp [encodeByte, hbits, quad, line]

/-- **What the encoder's loop and its end write.** -/
theorem encode_text (bs r : List UInt8) (cols : Nat) :
    (if 0 < (bs.foldl (encodeByte isChunked) ⟨r, 0, 0, cols⟩).padded.cols ∧ isChunked then
      (bs.foldl (encodeByte isChunked) ⟨r, 0, 0, cols⟩).padded.result ++ [newline]
    else (bs.foldl (encodeByte isChunked) ⟨r, 0, 0, cols⟩).padded.result) =
      r ++ text isChunked cols bs := by
  induction cols, bs using text.induct generalizing r with
  | case1 cols a b c rest ih0 ih =>
    have hthree := @encodeByte_three isChunked r cols a b c
    simp only [foldl_cons, foldl_nil] at hthree
    simp only [foldl_cons, hthree, text]
    by_cases hcols : cols + 4 = maxColumns
    · simp only [if_pos hcols]
      rw [ih0]
      simp
    · simp only [if_neg hcols]
      rw [ih]
      simp
  | case2 cols a b =>
    have hbits : (a.toNat <<< 8 + b.toNat) <<< 8 = group a b 0 := by
      simp only [Nat.shiftLeft_eq, group, UInt8.toNat_zero]
      omega
    cases isChunked <;> simp [encodeByte, Encoder.padded, text, quad, hbits, line]
  | case3 cols a =>
    have hbits : a.toNat <<< 8 <<< 8 = group a 0 0 := by
      simp only [Nat.shiftLeft_eq, group, UInt8.toNat_zero]
      omega
    cases isChunked <;> simp [encodeByte, Encoder.padded, text, quad, hbits, line]
  | case4 cols h => cases isChunked <;> simp [Encoder.padded, text, line, h]
  | case5 cols h => simp [Encoder.padded, text, h]

theorem encode_eq (bs : List UInt8) : encode isChunked bs = text isChunked 0 bs :=
  encode_text bs [] 0

/-- Four characters for three bytes, and a newline for 72 columns. -/
def textLength (isChunked : Bool) (cols n : Nat) : Nat :=
  (n + 2) / 3 * 4 + if isChunked then (cols + (n + 2) / 3 * 4 + 71) / 72 else 0

theorem length_text (bs : List UInt8) {cols : Nat} (hc : cols % 4 = 0) (hlt : cols < 72) :
    (text isChunked cols bs).length = textLength isChunked cols bs.length := by
  unfold textLength
  induction cols, bs using text.induct with
  | case1 cols a b c rest ih0 ih =>
    by_cases hcols : cols + 4 = 72
    · have hrest := ih0 (by omega) (by omega)
      cases isChunked <;> simp [text, maxColumns, hcols, quad, line, hrest] <;> omega
    · have hrest := ih (by omega) (by omega)
      cases isChunked <;> simp [text, maxColumns, hcols, quad, hrest] <;> omega
  | case2 cols a b =>
    cases isChunked <;> simp [text, quad, line]
    omega
  | case3 cols a =>
    cases isChunked <;> simp [text, quad, line]
    omega
  | case4 cols h =>
    cases isChunked <;> simp [text, line, h]
    omega
  | case5 cols h =>
    cases isChunked <;> simp [text, h]
    omega

/-! ## Decoding the text -/

theorem sextets {n : Nat} (h : n < 16777216) :
    (n >>> 18 < 64 ∧ n >>> 12 &&& 0x3f < 64) ∧ n >>> 6 &&& 0x3f < 64 ∧ n &&& 0x3f < 64 := by
  simp only [and_63, Nat.shiftRight_eq_div_pow]
  omega

/-- The bits of four characters, put together. -/
theorem sextets_join (n : Nat) :
    ((n >>> 18) <<< 6 + (n >>> 12 &&& 0x3f)) <<< 6 = n / 4096 * 64 ∧
      (n / 4096 * 64 + (n >>> 6 &&& 0x3f)) <<< 6 = n / 64 * 64 ∧ n / 64 * 64 + (n &&& 0x3f) = n := by
  simp only [and_63, Nat.shiftRight_eq_div_pow, Nat.shiftLeft_eq]
  omega

theorem group_lt (a b c : UInt8) : group a b c < 16777216 := by
  have ha := a.toNat_lt
  have hb := b.toNat_lt
  have hc := c.toNat_lt
  unfold group
  omega

theorem octets (a b c : UInt8) :
    UInt8.ofNat (group a b c >>> 16) = a ∧ UInt8.ofNat (group a b c >>> 8 &&& 0xff) = b ∧
      UInt8.ofNat (group a b c &&& 0xff) = c := by
  have ha := a.toNat_lt
  have hb := b.toNat_lt
  have hc := c.toNat_lt
  simp only [← UInt8.toNat_inj, UInt8.toNat_ofNat', and_255, Nat.shiftRight_eq_div_pow, group]
  omega

theorem decodeLoop_char {n : Nat} (h : n < 64) (cs r : List UInt8) (count bits : Nat) :
    decodeLoop (char n :: cs) ⟨r, count, bits⟩ = decodeLoop cs (if count + 1 = 4 then
        ⟨r ++ [UInt8.ofNat ((bits + n) >>> 16), UInt8.ofNat ((bits + n) >>> 8 &&& 0xff),
          UInt8.ofNat (bits + n &&& 0xff)], 0, 0⟩ else ⟨r, count + 1, (bits + n) <<< 6⟩) := by
  obtain ⟨⟨hm, hd⟩, hp, -⟩ := char_spec h
  simp [decodeLoop, decodeChar, hm, hp, hd]

theorem decodeLoop_line (cs : List UInt8) (d : Decoder) :
    decodeLoop (line isChunked ++ cs) d = decodeLoop cs d := by
  have hm : newline ≠ pad ∧ member newline = 0 := by decide +kernel
  cases isChunked <;> simp [line, decodeLoop, hm]

theorem decodeLoop_quad {n : Nat} (h : n < 16777216) (cs r : List UInt8) :
    decodeLoop (quad n ++ cs) ⟨r, 0, 0⟩ =
      decodeLoop cs ⟨r ++ [UInt8.ofNat (n >>> 16), UInt8.ofNat (n >>> 8 &&& 0xff),
        UInt8.ofNat (n &&& 0xff)], 0, 0⟩ := by
  obtain ⟨⟨h1, h2⟩, h3, h4⟩ := sextets h
  obtain ⟨e2, e3, e4⟩ := sextets_join n
  simp [quad, decodeLoop_char h1, decodeLoop_char h2, decodeLoop_char h3, decodeLoop_char h4, e2, e3, e4]

theorem decodeLoop_three {n : Nat} (h : n < 16777216) (cs r : List UInt8) :
    decodeLoop ((quad n).take 3 ++ cs) ⟨r, 0, 0⟩ = decodeLoop cs ⟨r, 3, n / 64 * 64⟩ := by
  obtain ⟨⟨h1, h2⟩, h3, -⟩ := sextets h
  obtain ⟨e2, e3, -⟩ := sextets_join n
  simp [quad, decodeLoop_char h1, decodeLoop_char h2, decodeLoop_char h3, e2, e3]

theorem decodeLoop_two {n : Nat} (h : n < 16777216) (cs r : List UInt8) :
    decodeLoop ((quad n).take 2 ++ cs) ⟨r, 0, 0⟩ = decodeLoop cs ⟨r, 2, n / 4096 * 64⟩ := by
  obtain ⟨⟨h1, h2⟩, -⟩ := sextets h
  simp [quad, decodeLoop_char h1, decodeLoop_char h2, (sextets_join n).1]

/-- **Decoding a text** gives the bytes behind what was there. -/
theorem decodeLoop_text (bs r : List UInt8) (cols : Nat) :
    (decodeLoop (text isChunked cols bs) ⟨r, 0, 0⟩).1.finish
      (decodeLoop (text isChunked cols bs) ⟨r, 0, 0⟩).2 = some (r ++ bs) := by
  induction cols, bs using text.induct generalizing r with
  | case1 cols a b c rest ih0 ih =>
    obtain ⟨ha, hb, hc⟩ := octets a b c
    rw [text, decodeLoop_quad (group_lt a b c), ha, hb, hc]
    split_ifs with hcols
    · rw [decodeLoop_line, ih0]
      simp
    · rw [ih]
      simp
  | case2 cols a b =>
    obtain ⟨ha, hb, -⟩ := octets a b 0
    have hlast : group a b 0 / 64 * 64 = group a b 0 := by
      simp only [group, UInt8.toNat_zero]
      omega
    rw [text, decodeLoop_three (group_lt a b 0), hlast]
    simp [decodeLoop, Decoder.finish, ha, hb]
  | case3 cols a =>
    have ha : UInt8.ofNat ((group a 0 0 / 4096 * 64) >>> 10) = a := by
      have := a.toNat_lt
      simp only [← UInt8.toNat_inj, UInt8.toNat_ofNat', Nat.shiftRight_eq_div_pow, group,
        UInt8.toNat_zero]
      omega
    rw [text, decodeLoop_two (group_lt a 0 0)]
    simp [decodeLoop, Decoder.finish, ha]
  | case4 cols h =>
    have hline := @decodeLoop_line isChunked [] ⟨r, 0, 0⟩
    simp_all [text, decodeLoop, Decoder.finish]
  | case5 cols h => simp [text, h, decodeLoop, Decoder.finish]

theorem accepted_line : ∀ c ∈ line isChunked, accepted c = true := by
  have hnewline : accepted newline = true := by decide +kernel
  cases isChunked <;> simp [line, hnewline]

theorem accepted_quad {n : Nat} (h : n < 16777216) : ∀ c ∈ quad n, accepted c = true := by
  obtain ⟨⟨h1, h2⟩, h3, h4⟩ := sextets h
  have hchar : ∀ {k : Nat}, k < 64 → accepted (char k) = true := fun hk => by
    obtain ⟨⟨hm, -⟩, -, h0⟩ := char_spec hk
    simp [accepted, hm, h0]
  simp [quad, hchar h1, hchar h2, hchar h3, hchar h4]

theorem accepted_text (bs : List UInt8) (cols : Nat) :
    ∀ c ∈ text isChunked cols bs, accepted c = true := by
  have hpad : accepted pad = true := by decide +kernel
  induction cols, bs using text.induct with
  | case1 cols a b c rest ih0 ih =>
    rw [text, forall_mem_append]
    refine ⟨accepted_quad (group_lt a b c), ?_⟩
    split_ifs
    · exact forall_mem_append.mpr ⟨accepted_line, ih0⟩
    · exact ih
  | case2 cols a b =>
    rw [text, forall_mem_append, forall_mem_cons]
    exact ⟨fun c hc => accepted_quad (group_lt a b 0) c (mem_of_mem_take hc), hpad, accepted_line⟩
  | case3 cols a =>
    rw [text, forall_mem_append, forall_mem_cons, forall_mem_cons]
    exact ⟨fun c hc => accepted_quad (group_lt a 0 0) c (mem_of_mem_take hc), hpad, hpad, accepted_line⟩
  | case4 cols h =>
    rw [text, if_pos h]
    exact accepted_line
  | case5 cols h => simp [text, h]

theorem takeWhile_encode (bs : List UInt8) :
    (encode isChunked bs ++ [0]).takeWhile accepted = encode isChunked bs := by
  rw [encode_eq, takeWhile_append_of_pos (accepted_text bs 0)]
  simp [accepted]

/-! ## The sizes of the buffers -/

/-- Decoding gives the bytes back, and what the functions write is inside their buffers. -/
structure RoundTrips (w : Nat) (isChunked : Bool) (bs : List UInt8) : Prop where
  bytes : decode (encode isChunked bs ++ [0]) = some bs
  encoded : (encode isChunked bs ++ [0]).length ≤ encodeLength w bs.length
  decoded : (bs ++ [0]).length ≤ length w (encode isChunked bs ++ [0])

/-- No size wraps: not the one of the text with a newline for every line begun, nor the one
that `length` rounds up. -/
def Fits (w : Nat) (isChunked : Bool) (n : Nat) : Prop :=
  (n + 2) / 3 * 4 + (n + 2) / 3 * 4 / 72 + 2 < 2 ^ w ∧ textLength isChunked 0 n + 3 < 2 ^ w

theorem mod_cases {x m : Nat} (h : x < 2 * m) : x < m ∧ x % m = x ∨ m ≤ x ∧ x % m = x - m := by
  rcases Nat.lt_or_ge x m with hx | hx
  · exact .inl ⟨hx, Nat.mod_eq_of_lt hx⟩
  · exact .inr ⟨hx, by rw [Nat.mod_eq_sub_mod hx, Nat.mod_eq_of_lt (by omega)]⟩

/-- The result's buffer holds the text if and only if its size has not wrapped. -/
theorem encodeLength_iff {w n : Nat} (hw : 16 ≤ w) (hn : n < 2 ^ w) :
    textLength isChunked 0 n + 1 ≤ encodeLength w n ↔
      (n + 2) / 3 * 4 + (n + 2) / 3 * 4 / 72 + 2 < 2 ^ w := by
  have hpow : 2 ^ 16 ≤ 2 ^ w := Nat.pow_le_pow_right (by norm_num) hw
  simp only [encodeLength, textLength, maxColumns]
  generalize 2 ^ w = W at hpow hn ⊢
  have h1 := mod_cases (x := n + 2) (m := W) (by omega)
  generalize (n + 2) % W = a at h1 ⊢
  have h2 := mod_cases (x := a / 3 * 4) (m := W) (by omega)
  generalize a / 3 * 4 % W = b at h2 ⊢
  have h3 := mod_cases (x := b / 72 + 1) (m := W) (by omega)
  generalize (b / 72 + 1) % W = c at h3 ⊢
  have h4 := mod_cases (x := c + 1) (m := W) (by omega)
  generalize (c + 1) % W = d at h4 ⊢
  have h5 := mod_cases (x := b + d) (m := W) (by omega)
  cases isChunked <;> simp only [if_true, Bool.false_eq_true, if_false] <;> omega

theorem length_iff {w n : Nat} (hw : 16 ≤ w)
    (h : (n + 2) / 3 * 4 + (n + 2) / 3 * 4 / 72 + 2 < 2 ^ w) :
    n + 1 ≤ ((textLength isChunked 0 n + 3) % 2 ^ w / 4 * 3 + 1) % 2 ^ w ↔
      textLength isChunked 0 n + 3 < 2 ^ w := by
  have hpow : 2 ^ 16 ≤ 2 ^ w := Nat.pow_le_pow_right (by norm_num) hw
  unfold textLength
  generalize 2 ^ w = W at hpow h ⊢
  cases isChunked <;> simp only [if_true, Bool.false_eq_true, if_false, Nat.zero_add, Nat.add_zero]
  · have h1 := mod_cases (x := (n + 2) / 3 * 4 + 3) (m := W) (by omega)
    have h2 := mod_cases (x := ((n + 2) / 3 * 4 + 3) % W / 4 * 3 + 1) (m := W) (by omega)
    omega
  · have h1 := mod_cases (x := (n + 2) / 3 * 4 + ((n + 2) / 3 * 4 + 71) / 72 + 3) (m := W) (by omega)
    have h2 := mod_cases
      (x := ((n + 2) / 3 * 4 + ((n + 2) / 3 * 4 + 71) / 72 + 3) % W / 4 * 3 + 1) (m := W) (by omega)
    omega

/-- **Base64 round trip**: at every length of the input that a `size_t` of 16 bits or more
can hold, if and only if no size wraps. -/
theorem base64_roundTrip_iff {w : Nat} (hw : 16 ≤ w) {bs : List UInt8} (hbs : bs.length < 2 ^ w) :
    RoundTrips w isChunked bs ↔ Fits w isChunked bs.length := by
  have hlen : (encode isChunked bs).length = textLength isChunked 0 bs.length := by
    rw [encode_eq, length_text bs rfl (by norm_num)]
  have hdecode : decode (encode isChunked bs ++ [0]) = some bs := by
    unfold decode
    rw [takeWhile_encode, encode_eq]
    exact decodeLoop_text bs [] 0
  unfold Fits
  rw [← encodeLength_iff hw hbs]
  constructor
  · rintro ⟨-, he, hd⟩
    simp only [length, takeWhile_encode, length_append, length_singleton, hlen] at he hd
    exact ⟨he, (length_iff hw ((encodeLength_iff hw hbs).mp he)).mp hd⟩
  · rintro ⟨he, hd⟩
    refine ⟨hdecode, by simpa [hlen] using he, ?_⟩
    have := (length_iff hw ((encodeLength_iff hw hbs).mp he)).mpr hd
    simpa [length, takeWhile_encode, hlen] using this

theorem base64_roundTrip_iff_abc : RoundTrips 32 true [97, 98, 99] :=
  (base64_roundTrip_iff (by norm_num) (by norm_num)).mpr (by unfold Fits textLength; norm_num)

/-- **Writes behind the buffer**: 3 GiB, less a byte, where `size_t` has 32 bits. -/
theorem result_overrun : ¬RoundTrips 32 false (replicate 3221225471 0) := fun h => by
  have hbuffer := h.encoded
  rw [encode_eq, length_append, length_text _ rfl (by norm_num), length_replicate] at hbuffer
  exact absurd hbuffer (by decide +kernel)

end Atcd.Codecs.Base64
