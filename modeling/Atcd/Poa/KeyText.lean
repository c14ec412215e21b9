import Mathlib
/-!
# Object keys as text (`Object_KeyC.cpp`)

`encode_sequence_to_string` writes the octets of a key into a buffer of three
characters an octet and one for the NUL: the characters that a URL may hold as
they are, every other octet as `%` and two hexadecimal digits.
`decode_string_to_sequence` takes both `%` and `\` for the start of an escape.

Results:
* `encode_written`: below 2^32 / 3 octets the guard `cp < eos` never cuts the
  loop short, so the text is the octets' text one after the other.
* `decodeLoop_text`: the decoder's loop takes the text of the octets apart,
  whatever stands behind it.
* `key_text_roundTrip`: decoding what was encoded gives the octets back.
-/
namespace Atcd.Poa.KeyText

open List

/-- The value of a `CORBA::ULong`. -/
def ulong (n : Nat) : Nat := n % 2 ^ 32

/-! ## Characters -/

def isDigit (c : UInt8) : Bool := 48 ≤ c && c ≤ 57

def isLower (c : UInt8) : Bool := 97 ≤ c && c ≤ 122

def isUpper (c : UInt8) : Bool := 65 ≤ c && c ≤ 90

def isAlnum (c : UInt8) : Bool := isDigit c || isLower c || isUpper c

/-- mirrors TAO/tao/Object_KeyC.cpp:132-148 (`is_legal`) -/
def isLegal (c : UInt8) : Bool :=
  if isAlnum c then true
  else
    -- ; / : ? @ & = + $ , _ . ! ~ * ' - ( )
    c == 59 || c == 47 || c == 58 || c == 63 || c == 64 || c == 38 || c == 61 || c == 43 ||
      c == 36 || c == 44 || c == 95 || c == 46 || c == 33 || c == 126 || c == 42 || c == 39 ||
      c == 45 || c == 40 || c == 41

/-- `"0123456789abcdef"` -/
def hexChars : List UInt8 :=
  [48, 49, 50, 51, 52, 53, 54, 55, 56, 57, 97, 98, 99, 100, 101, 102]

/-- mirrors ACE/ace/ACE.cpp:151-156 (`nibble2hex`) -/
def nibble2hex (n : UInt8) : UInt8 := hexChars.getD (n &&& 0x0f).toNat 0

/-- mirrors ACE/ace/ACE.inl:318-327 (`hex2byte`), in the arithmetic of `u_char` -/
def hex2byte (c : UInt8) : UInt8 :=
  if isDigit c then c - 48
  else if isLower c then 10 + c - 97
  else 10 + c - 65

/-! ## Encoder -/

/-- What one turn of the encoder's loop writes for the octet `bt`. -/
def text (bt : UInt8) : List UInt8 :=
  if isLegal bt then [bt]
  else [37, nibble2hex ((bt >>> 4) &&& 0x0f), nibble2hex (bt &&& 0x0f)]

/-- The loop of the encoder over the octets from `seq[i]` on. `out` are the
characters from `str` to `cp`. -/
def encodeLoop (eos : Nat) : List UInt8 → List UInt8 → List UInt8
  | [], out => out
  | bt :: seq, out => if out.length < eos then encodeLoop eos seq (out ++ text bt) else out

/-- A buffer of `string_alloc` and the characters written from its start. -/
structure CharBuffer where
  allocated : Nat
  written : List UInt8
  deriving DecidableEq, Repr

/-- mirrors Object_KeyC.cpp:95-130 (`encode_sequence_to_string`);
`string_alloc` adds the place of the NUL -/
def encodeSequenceToString (seq : List UInt8) : CharBuffer :=
  let len := ulong (3 * seq.length)
  { allocated := len + 1, written := encodeLoop len seq [] ++ [0] }

/-! ## Decoder -/

/-- `strlen` of the memory from `str` on; `none` when no NUL is found in it. -/
def strlen (mem : List UInt8) : Option Nat := mem.findIdx? (· == 0)

/-- The loop of the decoder from `cp` on; `seq` are the octets below `i`.
`none` is a read outside the memory. -/
def decodeLoop (mem : List UInt8) (eos len cp : Nat) (seq : List UInt8) : Option (List UInt8) :=
  if cp < eos ∧ seq.length < len then
    match mem[cp]? with
    | none => none
    | some c =>
      if c = 37 ∨ c = 92 then
        match mem[cp + 1]?, mem[cp + 2]? with
        | some hi, some lo =>
          decodeLoop mem eos len (cp + 3) (seq ++ [hex2byte hi <<< 4 ||| hex2byte lo])
        | _, _ => none
      else decodeLoop mem eos len (cp + 1) (seq ++ [c])
  else some seq
termination_by eos - cp

/-- mirrors Object_KeyC.cpp:150-197 (`decode_string_to_sequence`);
`none` for the string is the null pointer, else the memory from `str` on -/
def decodeStringToSequence (str : Option (List UInt8)) : Option (List UInt8) :=
  match str with
  | none => some []
  | some mem =>
    match strlen mem with
    | none => none
    | some strLen =>
      -- truncate_cast<CORBA::ULong>
      let len := min strLen (2 ^ 32 - 1)
      decodeLoop mem strLen len 0 []

/-! ## One octet -/

theorem text_length (bt : UInt8) : 1 ≤ (text bt).length ∧ (text bt).length ≤ 3 := by
  unfold text
  split <;> simp

/-- A legal character introduces no escape and ends no string. -/
def plainOk (bt : UInt8) : Bool := !isLegal bt || (bt != 37 && bt != 92 && bt != 0)

/-- The digits of an escaped octet are characters that give it back. -/
def escapedOk (bt : UInt8) : Bool :=
  nibble2hex ((bt >>> 4) &&& 0x0f) != 0 && nibble2hex (bt &&& 0x0f) != 0 &&
    (hex2byte (nibble2hex ((bt >>> 4) &&& 0x0f)) <<< 4 |||
      hex2byte (nibble2hex (bt &&& 0x0f))) == bt

theorem octets_ok : ∀ n < 256, plainOk (UInt8.ofNat n) ∧ escapedOk (UInt8.ofNat n) := by
  decide +kernel

theorem octet_ok (bt : UInt8) : plainOk bt ∧ escapedOk bt := by
  have h := octets_ok bt.toNat bt.toNat_lt
  rwa [UInt8.ofNat_toNat] at h

theorem legal_plain {bt : UInt8} (h : isLegal bt) : bt ≠ 37 ∧ bt ≠ 92 ∧ bt ≠ 0 := by
  have := (octet_ok bt).1
  simpa [plainOk, h, and_assoc] using this

theorem escaped_back (bt : UInt8) :
    hex2byte (nibble2hex ((bt >>> 4) &&& 0x0f)) <<< 4 ||| hex2byte (nibble2hex (bt &&& 0x0f)) =
      bt := by
  have := (octet_ok bt).2
  simp only [escapedOk, Bool.and_eq_true, beq_iff_eq] at this
  exact this.2

theorem text_ne_zero {bt c : UInt8} (hc : c ∈ text bt) : c ≠ 0 := by
  have hdigits := (octet_ok bt).2
  simp only [escapedOk, Bool.and_eq_true, bne_iff_ne, beq_iff_eq] at hdigits
  unfold text at hc
  split at hc
  · next h =>
    rw [mem_singleton.mp hc]
    exact (legal_plain h).2.2
  · simp only [mem_cons, not_mem_nil, or_false] at hc
    obtain rfl | rfl | rfl := hc
    · decide
    · exact hdigits.1.1
    · exact hdigits.1.2

/-! ## The encoder's text -/

theorem texts_length (seq : List UInt8) : (seq.flatMap text).length ≤ 3 * seq.length := by
  induction seq with
  | nil => simp
  | cons bt seq ih =>
    have := (text_length bt).2
    simp only [flatMap_cons, length_append, length_cons]
    omega

theorem length_le_texts (seq : List UInt8) : seq.length ≤ (seq.flatMap text).length := by
  induction seq with
  | nil => simp
  | cons bt seq ih =>
    have := (text_length bt).1
    simp only [flatMap_cons, length_append, length_cons]
    omega

/-- While three characters are left for each octet, the guard holds. -/
theorem encodeLoop_eq {eos : Nat} {seq out : List UInt8} (h : out.length + 3 * seq.length ≤ eos) :
    encodeLoop eos seq out = out ++ seq.flatMap text := by
  induction seq generalizing out with
  | nil => simp [encodeLoop]
  | cons bt seq ih =>
    have hlen := (text_length bt).2
    simp only [length_cons] at h
    have hguard : out.length < eos := by omega
    have hrest : (out ++ text bt).length + 3 * seq.length ≤ eos := by
      rw [length_append]
      omega
    rw [encodeLoop, if_pos hguard, ih hrest, flatMap_cons, append_assoc]

theorem encode_written {seq : List UInt8} (h : 3 * seq.length < 2 ^ 32) :
    encodeSequenceToString seq =
      { allocated := 3 * seq.length + 1, written := seq.flatMap text ++ [0] } := by
  have hlen : ulong (3 * seq.length) = 3 * seq.length := Nat.mod_eq_of_lt h
  have hloop : encodeLoop (3 * seq.length) seq [] = [] ++ seq.flatMap text :=
    encodeLoop_eq (by simp)
  simp only [encodeSequenceToString, hlen, hloop, nil_append]

/-! ## The decoder's loop -/

/-- **One octet.** Its text at `cp` is taken for the octet again. -/
theorem decodeLoop_octet {before after seq : List UInt8} {bt : UInt8} {eos len : Nat}
    (heos : before.length + (text bt).length ≤ eos) (hlen : seq.length < len) :
    decodeLoop (before ++ text bt ++ after) eos len before.length seq =
      decodeLoop (before ++ text bt ++ after) eos len (before ++ text bt).length (seq ++ [bt]) := by
  have hcp : before.length < eos := by
    have := (text_length bt).1
    omega
  rw [decodeLoop, if_pos ⟨hcp, hlen⟩]
  by_cases hlegal : isLegal bt
  · obtain ⟨hpercent, hback, -⟩ := legal_plain hlegal
    simp [text, hlegal, hpercent, hback]
  · have h := escaped_back bt
    simp [text, hlegal, h]

theorem decodeLoop_text {before after seq octets : List UInt8} {eos len : Nat}
    (heos : eos = (before ++ octets.flatMap text).length)
    (hlen : seq.length + octets.length ≤ len) :
    decodeLoop (before ++ octets.flatMap text ++ after) eos len before.length seq =
      some (seq ++ octets) := by
  induction octets generalizing before seq with
  | nil =>
    have hend : ¬(before.length < eos ∧ seq.length < len) := by simp [heos]
    rw [decodeLoop, if_neg hend, append_nil]
  | cons bt octets ih =>
    simp only [flatMap_cons, length_append, length_cons] at heos hlen
    have hmem : before ++ (text bt ++ octets.flatMap text) ++ after =
        before ++ text bt ++ (octets.flatMap text ++ after) := by
      simp only [append_assoc]
    rw [flatMap_cons, hmem, decodeLoop_octet (by omega) (by omega), ← append_assoc,
      ih (by simp only [length_append]; omega)
        (by simp only [length_append, length_singleton]; omega), append_assoc, singleton_append]

theorem strlen_text (octets after : List UInt8) :
    strlen (octets.flatMap text ++ [0] ++ after) = some (octets.flatMap text).length := by
  have hnul : ∀ c ∈ octets.flatMap text, ¬(c == 0) := by
    intro c hc
    obtain ⟨bt, -, hbt⟩ := mem_flatMap.mp hc
    simpa using text_ne_zero hbt
  have hnone : (octets.flatMap text).findIdx? (· == 0) = none := by
    simpa [findIdx?_eq_none_iff] using hnul
  rw [strlen, append_assoc, findIdx?_append, hnone]
  simp [findIdx?_cons]

/-- **Round trip.** The characters written lie in the buffer, and decoding them
gives the octets back, whatever the rest of the memory holds. -/
theorem key_text_roundTrip (seq after : List UInt8) (h : 3 * seq.length < 2 ^ 32) :
    decodeStringToSequence (some ((encodeSequenceToString seq).written ++ after)) = some seq ∧
      (encodeSequenceToString seq).allocated = 3 * seq.length + 1 ∧
      (encodeSequenceToString seq).written.length ≤ (encodeSequenceToString seq).allocated := by
  rw [encode_written h]
  have hlen := texts_length seq
  refine ⟨?_, rfl, by simpa using hlen⟩
  have hle := length_le_texts seq
  have hmin : min (seq.flatMap text).length (2 ^ 32 - 1) = (seq.flatMap text).length := by omega
  have hloop : decodeLoop ([] ++ seq.flatMap text ++ ([0] ++ after)) (seq.flatMap text).length
      (seq.flatMap text).length ([] : List UInt8).length [] = some ([] ++ seq) :=
    decodeLoop_text rfl (by simpa using hle)
  simp only [nil_append, length_nil] at hloop
  simp only [decodeStringToSequence, strlen_text, hmin]
  rw [append_assoc, hloop]

/-- An octet of each kind, the NUL and both escape introducers among them. -/
theorem key_text_roundTrip_sample :
    3 * [65, 0, 37, 92, 255].length < 2 ^ 32 ∧
      decodeStringToSequence
        (some ((encodeSequenceToString [65, 0, 37, 92, 255]).written ++ [7])) =
          some [65, 0, 37, 92, 255] :=
  ⟨by decide, (key_text_roundTrip [65, 0, 37, 92, 255] [7] (by decide)).1⟩

end Atcd.Poa.KeyText
