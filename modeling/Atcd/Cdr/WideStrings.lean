import Atcd.Cdr.RoundTrip
/-!
# Wide strings

The readers of wide characters, and wide strings of GIOP 1.2 on both sides: the number of
bytes, then the characters in `wchar_maxbytes_` bytes each, without a NUL. No translator is
set, and a product of a `ULong` and `wchar_maxbytes_` fits `size_t`.

On the wire an array of wide characters is one of octets, `ushort` or `ulong`.

Results:
* `writeWstring_emits`, `readWstring_at`: the writer's segments, and the reader on them,
  for characters that `wchar_maxbytes_` bytes hold;
* `version_readScalar`, `version_readCString`, `version_readWstring`: the readers keep the
  version of the stream.
-/
namespace Atcd.Cdr

open Atcd.Core List UInt32 OutputCDR

namespace InputCDR

variable (P : Platform)

/-- mirrors ACE/ace/CDR_Stream.cpp:1701-1739 -/
def readWcharArrayI (r : InputCDR) (length : UInt32) : Option (List UInt32) × InputCDR :=
  if length = 0 then (some [], r)
  else
    let align := if P.wcharMaxbytes = 2 then shortAlign else octetAlign
    match r.adjust (P.wcharMaxbytes * length.toNat) align with
    | (none, r) => (none, r)
    | (some buf, r) =>
      let sb := r.peek buf (P.wcharMaxbytes * length.toNat)
      if P.wcharMaxbytes = 2 then
        let x := chunks (fun bs => UInt32.ofNat (load P.endian
          (if r.doByteSwap = false then bs else swapElem P.endian shortSize bs))) 2 length.toNat sb
        (if r.goodBit = true then some x else none, r)
      else (if r.goodBit = true then some ((sb.take length.toNat).map UInt8.toUInt32) else none, r)

/-- mirrors ACE/ace/CDR_Stream.inl:738-760 -/
def readWcharArray (r : InputCDR) (length : UInt32) : Option (List UInt32) × InputCDR :=
  if length.toNat * P.wcharMaxbytes > r.length then (none, r.bad)
  else if P.wcharMaxbytes ≠ P.wcharSize then r.readWcharArrayI P length
  else
    let x := r.readArray P P.wcharSize (if P.wcharSize = 2 then shortAlign else longAlign) length
    (x.1.map (chunks (fun bs => UInt32.ofNat (load P.endian bs)) P.wcharSize length.toNat), x.2)

/-- The array it allocates.
mirrors CDR_Stream.cpp:1565-1652 -/
def readWstring (r : InputCDR) : Option (List UInt32) × InputCDR :=
  if P.wcharMaxbytes = 0 then (none, r.bad)
  else match r.readUlong P with
  | (none, r) => (none, r)
  | (some len, r) =>
    if 0 < len ∧ len.toNat ≤ r.length then
      if r.majorVersion = 1 ∧ r.minorVersion = 2 then
        match r.readWcharArray P (len / UInt32.ofNat P.wcharMaxbytes) with
        | (some x, r) => (some (x ++ [0]), r)
        | (none, r) => (none, r.bad)
      else
        match r.readWcharArray P len with
        | (some x, r) => (some x, r)
        | (none, r) => (none, r.bad)
    else if len = 0 then (some [0], r)
    else (none, r.bad)

end InputCDR

/-- A wide string of characters in `n` bytes: no NUL among them. -/
structure WString (n : Nat) where
  val : List UInt32
  nonul : (0 : UInt32) ∉ val
  small : ∀ c ∈ val, c.toNat < 256 ^ n

section Wire

/-- The types of the characters on the wire. -/
inductive WideKind : Kind → Nat → Type
  | octet : WideKind .octet 1
  | ushort : WideKind .ushort 2
  | ulong : WideKind .ulong 4

variable {k : Kind} {n : Nat}

def WideKind.narrow : WideKind k n → UInt32 → k.Val
  | .octet, c => c.toUInt8
  | .ushort, c => c.toUInt16
  | .ulong, c => c

def WideKind.widen : WideKind k n → k.Val → UInt32
  | .octet, c => UInt8.toUInt32 c
  | .ushort, c => UInt16.toUInt32 c
  | .ulong, c => c

theorem WideKind.size (w : WideKind k n) : k.size = n ∧ k.align = n := by
  cases w <;> exact ⟨rfl, rfl⟩

theorem WideKind.widen_narrow (w : WideKind k n) {c : UInt32} (h : c.toNat < 256 ^ n) :
    w.widen (w.narrow c) = c := by
  cases w with
  | octet =>
    apply UInt32.toNat_inj.mp
    simp only [widen, narrow, UInt8.toNat_toUInt32, UInt32.toNat_toUInt8]
    omega
  | ushort =>
    apply UInt32.toNat_inj.mp
    simp only [widen, narrow, UInt16.toNat_toUInt32, UInt32.toNat_toUInt16]
    omega
  | ulong => rfl

theorem WideKind.toMem_narrow (w : WideKind k n) (e : Endian) {c : UInt32} (h : c.toNat < 256 ^ n) :
    k.toMem e (w.narrow c) = store e n c.toNat := by
  cases w with
  | octet =>
    have hb : UInt8.ofNat c.toNat = c.toUInt8 := by
      apply UInt8.toNat_inj.mp
      simp
    cases e <;> simp [Kind.toMem, narrow, store, leBytes, hb]
  | ushort =>
    have hval : c.toUInt16.toNat = c.toNat := by
      rw [toNat_toUInt16]
      omega
    exact congrArg (store e 2) hval
  | ulong => rfl

/-- A character is the number in its bytes. -/
theorem WideKind.load_toMem (w : WideKind k n) (e : Endian) {c : UInt32} (h : c.toNat < 256 ^ n) :
    UInt32.ofNat (load e (k.toMem e (w.narrow c))) = c := by
  rw [w.toMem_narrow e h, load_store e h, UInt32.ofNat_toNat]

end Wire

namespace OutputCDR

variable (P : Platform) {k : Kind} {n : Nat}

theorem ulen_ne_zero {α : Type} {x : List α} {length : UInt32} (hl : length.toNat = x.length)
    (hne : x ≠ []) : ¬length = 0 := by
  intro h0
  rw [h0] at hl
  exact hne (length_eq_zero_iff.mp hl.symm)

theorem wcharMem_eq (w : WideKind k n) (hn : P.wcharSize = n) {x : List UInt32}
    (hsmall : ∀ c ∈ x, c.toNat < 256 ^ n) :
    x.flatMap (wcharMem P) = memory P k (x.map w.narrow) := by
  rw [memory, flatMap_map, flatMap_def, flatMap_def]
  congr 1
  apply map_congr_left
  intro c hc
  rw [wcharMem, hn, w.toMem_narrow P.endian (hsmall c hc)]

open WideKind

/-- The loop over characters of less bytes. -/
theorem writeWcharArrayI_emits {s : OutputCDR} (h : s.Wf) (hg : s.goodBit = true)
    (w : WideKind k n) (hn : P.wcharMaxbytes = n) (h4 : n ≠ 4) {x : List UInt32}
    {length : UInt32} (hl : length.toNat = x.length) (hne : x ≠ []) :
    (s.writeWcharArrayI P x length).1 = true ∧
      Emits [⟨k.align, (x.map w.narrow).flatMap (wire P (s.swaps P) k)⟩] s
        (s.writeWcharArrayI P x length).2 := by
  obtain ⟨hsize, halign⟩ := w.size
  have hlen : ((x.map w.narrow).flatMap (wire P (s.swaps P) k)).length = n * length.toNat := by
    rw [length_flatMap_const _ k.size _ fun y _ => length_wire P _ k y, hsize, length_map, hl]
  obtain ⟨buf, s', hadj, hres⟩ := adjust_spec P h (n * length.toNat) k.isAlign
  have hk : s'.swaps P = s.swaps P := swaps_keeps hres.keeps
  have hg' : s'.goodBit = true := hres.keeps.good hg
  have hpoke := hres.poke_exact hlen
  have htake : x.take length.toNat = x := take_of_length_le (Nat.le_of_eq hl.symm)
  rw [writeWcharArrayI, if_neg (ulen_ne_zero hl hne)]
  cases w with
  | ulong => exact absurd rfl h4
  | octet =>
    have hone : ¬1 = 2 := by decide
    have hbytes : (x.map toUInt8) =
        (x.map octet.narrow).flatMap (wire P (s.swaps P) .octet) := by
      have hwire : wire P (s.swaps P) .octet = fun c => [c] := by
        funext c
        cases s.swaps P <;> rfl
      rw [hwire]
      exact (flatMap_singleton' _).symm
    have halign1 : Kind.octet.align = octetAlign := rfl
    simp only [hn, hone, if_false, ← halign1, hadj, htake]
    rw [hbytes]
    exact ⟨hg', hpoke⟩
  | ushort =>
    have halign2 : Kind.ushort.align = shortAlign := rfl
    have hmem : ∀ c : UInt32, store P.endian shortSize c.toUInt16.toNat =
        Kind.ushort.toMem P.endian (ushort.narrow c) := fun c => rfl
    simp only [hn, if_true, ← halign2, hadj, htake, hmem]
    by_cases hsw : P.swapOnWrite = true ∧ s'.doByteSwap = true
    · have hs : s.swaps P = true := by
        rw [← hk]
        simp [swaps, hsw]
      have hbytes : ((x.map fun c => Kind.ushort.toMem P.endian (ushort.narrow c)).map
          (swapElem P.endian shortSize)).flatten =
          (x.map ushort.narrow).flatMap (wire P true .ushort) := by
        rw [flatMap_def, map_map, map_map]
        congr 1
        apply map_congr_left
        intro c _
        exact swapElem_eq P.endian (.inr (.inl rfl)) (Kind.length_toMem P.endian .ushort _)
      rw [if_pos hsw, hbytes]
      rw [hs] at hpoke ⊢
      exact ⟨hg', hpoke⟩
    · have hs : s.swaps P = false := by
        rw [← hk]
        simpa [swaps] using hsw
      have hbytes : (x.map fun c => Kind.ushort.toMem P.endian (ushort.narrow c)).flatten =
          (x.map ushort.narrow).flatMap (wire P false .ushort) := by
        rw [flatMap_def, map_map]
        rfl
      rw [if_neg hsw, hbytes]
      rw [hs] at hpoke ⊢
      exact ⟨hg', hpoke⟩

theorem writeWcharArray_emits {s : OutputCDR} (h : s.Wf) (hg : s.goodBit = true)
    (w : WideKind k n) (hn : P.wcharMaxbytes = n) (hle : n ≤ P.wcharSize) {x : List UInt32}
    {length : UInt32} (hsmall : ∀ c ∈ x, c.toNat < 256 ^ n) (hl : length.toNat = x.length)
    (hne : x ≠ []) : (s.writeWcharArray P x length).1 = true ∧
      Emits [⟨k.align, (x.map w.narrow).flatMap (wire P (s.swaps P) k)⟩] s
        (s.writeWcharArray P x length).2 := by
  have hzero : ¬P.wcharMaxbytes = 0 := by
    rw [hn]
    cases w <;> decide
  rw [writeWcharArray, if_neg hzero]
  obtain ⟨hsize, halign⟩ := w.size
  by_cases hfull : P.wcharMaxbytes = P.wcharSize
  · have hws : P.wcharSize = n := hfull.symm.trans hn
    have hal : (if P.wcharSize = 2 then shortAlign else longAlign) = k.align := by
      rw [halign]
      rcases P.wcharSize_eq with h2 | h2 <;> rw [h2] <;> rw [h2] at hws <;> exact hws
    rw [if_pos hfull, hal, wcharMem_eq P w hws hsmall, hws.trans hsize.symm]
    exact writeArray_emits P h k (by simpa using hl) (by simpa using hne)
  · rw [if_neg hfull]
    have hne4 : n ≠ 4 := by
      rintro rfl
      rcases P.wcharSize_eq with h2 | h2 <;> omega
    exact writeWcharArrayI_emits P h hg w hn hne4 hl hne

/-- The segments of a wide string. -/
def wideSegs (swap : Bool) (w : WideKind k n) (x : List UInt32) : List (Seg UInt8) :=
  seg P swap .ulong (UInt32.ofNat (n * x.length)) ::
    (if x = [] then [] else [⟨k.align, (x.map w.narrow).flatMap (wire P swap k)⟩])

/-- **Wide strings.** The number of bytes, then the characters. -/
theorem writeWstring_emits {s : OutputCDR} (h : s.Wf) (hg : s.goodBit = true)
    (hv : s.majorVersion = 1 ∧ s.minorVersion = 2) (w : WideKind k n)
    (hn : P.wcharMaxbytes = n) (hle : n ≤ P.wcharSize) (x : WString n)
    (hx : n * x.val.length < 2 ^ 32) :
    (s.writeWstring P (UInt32.ofNat x.val.length) (some x.val)).1 = true ∧
      Emits (wideSegs P (s.swaps P) w x.val) s
        (s.writeWstring P (UInt32.ofNat x.val.length) (some x.val)).2 := by
  have hpos : 0 < n := by cases w <;> decide
  have hlt : x.val.length < 2 ^ 32 := lt_of_le_of_lt (Nat.le_mul_of_pos_left _ hpos) hx
  have hlen : (ofNat x.val.length).toNat = x.val.length := toNat_ofNat_of_lt' hlt
  have hcast : truncateCast (n * x.val.length) = ofNat (n * x.val.length) := if_pos hx
  obtain ⟨hu, eu⟩ := writeScalar_emits P h .ulong (ofNat (n * x.val.length))
  have hw : s.writeUlong P (ofNat (n * x.val.length)) =
      (true, (s.writeUlong P (ofNat (n * x.val.length))).2) := Prod.ext hu rfl
  rw [writeWstring, if_neg (by omega), if_pos hv]
  simp only [hn, hlen, hcast]
  rw [hw]
  simp only
  by_cases hne : x.val = []
  · have hzero : writeWcharArray P (s.writeUlong P (ofNat (n * x.val.length))).2 x.val
        (ofNat x.val.length) =
        (true, (s.writeUlong P (ofNat (n * x.val.length))).2) := by
      rw [writeWcharArray, if_neg (by omega), hne]
      split_ifs <;> rfl
    rw [hzero, wideSegs, if_pos hne]
    exact ⟨rfl, eu⟩
  · obtain ⟨hc, ec⟩ := writeWcharArray_emits P eu.wf (eu.keeps.good hg) w hn hle x.small hlen hne
    rw [wideSegs, if_neg hne]
    refine ⟨hc, ?_⟩
    have happ := eu.append ec
    rwa [swaps_keeps eu.keeps] at happ

end OutputCDR

namespace InputCDR

variable {P : Platform} {k : Kind} {n : Nat}

/-! ## The version -/

def version (r : InputCDR) : UInt8 × UInt8 := (r.majorVersion, r.minorVersion)

theorem version_adjust (r : InputCDR) (size align : Nat) :
    (r.adjust size align).2.version = r.version := by
  simp only [adjust]
  split <;> rfl

theorem version_read1 (r : InputCDR) : r.read1.2.version = r.version := by
  simp only [read1]
  split <;> rfl

theorem version_readPrim (r : InputCDR) (size align : Nat) :
    (r.readPrim P size align).2.version = r.version := by
  have h := version_adjust r size align
  simp only [readPrim]
  generalize r.adjust size align = a at h ⊢
  obtain ⟨_ | buf, r'⟩ := a
  · exact h
  · simp only
    split <;> exact h

theorem version_readScalar (r : InputCDR) (k : Kind) :
    (r.readScalar P k).2.version = r.version := by
  cases k with
  | octet => exact version_read1 r
  | boolean => exact version_read1 r
  | char => exact version_read1 r
  | _ => exact version_readPrim r _ _

theorem version_readArray (r : InputCDR) (size align : Nat) (length : UInt32) :
    (r.readArray P size align length).2.version = r.version := by
  have h := version_adjust r (size * length.toNat) align
  simp only [readArray]
  split
  · rfl
  · generalize r.adjust (size * length.toNat) align = a at h ⊢
    obtain ⟨_ | buf, r'⟩ := a
    · exact h
    · simp only
      split
      · exact h
      · split <;> exact h

theorem version_readCString (r : InputCDR) : (r.readCString P).2.version = r.version := by
  have hu := version_readScalar (P := P) r .ulong
  simp only [readCString, readString, readUlong]
  generalize r.readScalar P .ulong = a at hu ⊢
  obtain ⟨_ | len, r'⟩ := a
  · exact hu
  · have ha := version_readArray (P := P) r' octetSize octetAlign len
    simp only [readCharArray]
    by_cases h1 : 0 < len ∧ len.toNat ≤ r'.length
    · rw [if_pos h1, if_neg (by omega)]
      generalize r'.readArray P octetSize octetAlign len = a at ha ⊢
      obtain ⟨_ | x, r''⟩ := a
      · exact ha.trans hu
      · exact ha.trans hu
    · rw [if_neg h1]
      split_ifs <;> exact hu

theorem version_readWcharArray (r : InputCDR) (length : UInt32) :
    (r.readWcharArray P length).2.version = r.version := by
  simp only [readWcharArray]
  split
  · rfl
  · split
    · have h := version_adjust r (P.wcharMaxbytes * length.toNat)
        (if P.wcharMaxbytes = 2 then shortAlign else octetAlign)
      simp only [readWcharArrayI]
      split
      · rfl
      · generalize r.adjust (P.wcharMaxbytes * length.toNat)
          (if P.wcharMaxbytes = 2 then shortAlign else octetAlign) = a at h ⊢
        obtain ⟨_ | buf, r'⟩ := a
        · exact h
        · simp only
          split <;> exact h
    · exact version_readArray r _ _ _

theorem version_readWstring (r : InputCDR) : (r.readWstring P).2.version = r.version := by
  have hu := version_readScalar (P := P) r .ulong
  simp only [readWstring, readUlong]
  split
  · rfl
  · generalize r.readScalar P .ulong = a at hu ⊢
    obtain ⟨_ | len, r'⟩ := a
    · exact hu
    · simp only
      split
      · split
        · have h := version_readWcharArray (P := P) r' (len / ofNat P.wcharMaxbytes)
          generalize r'.readWcharArray P (len / ofNat P.wcharMaxbytes) = a at h ⊢
          obtain ⟨_ | x, r''⟩ := a
          · exact h.trans hu
          · exact h.trans hu
        · have h := version_readWcharArray (P := P) r' len
          generalize r'.readWcharArray P len = a at h ⊢
          obtain ⟨_ | x, r''⟩ := a
          · exact h.trans hu
          · exact h.trans hu
      · split <;> exact hu

/-! ## Wide characters -/

/-- The characters in the memory of a run. -/
theorem chunks_load (w : WideKind k n) {x : List UInt32} (hsmall : ∀ c ∈ x, c.toNat < 256 ^ n) :
    chunks (fun bs => UInt32.ofNat (load P.endian bs)) n x.length
      ((x.map w.narrow).flatMap (k.toMem P.endian)) = x := by
  have hc := chunks_flatMap (fun bs => ofNat (load P.endian bs)) (k.toMem P.endian) n
    (x.map w.narrow) [] fun y _ => (k.length_toMem P.endian y).trans w.size.1
  rw [append_nil, length_map, map_map] at hc
  rw [hc]
  conv_rhs => rw [← map_id x]
  apply map_congr_left
  intro c hc
  exact w.load_toMem P.endian (hsmall c hc)

theorem readWcharArrayI_reads (swap : Bool) (w : WideKind k n) (hn : P.wcharMaxbytes = n)
    (h4 : n ≠ 4) {x : List UInt32} (hsmall : ∀ c ∈ x, c.toNat < 256 ^ n) {length : UInt32}
    (hl : length.toNat = x.length) (hne : x ≠ []) :
    Reads swap [⟨k.align, (x.map w.narrow).flatMap (OutputCDR.wire P swap k)⟩] x
      (·.readWcharArrayI P length) := by
  intro r pos bs rest hat hlaid
  obtain ⟨fill, rest', rfl, hfill, hnil⟩ := hlaid.cons_inv
  obtain rfl := hnil.nil_inv
  have hwire : ∀ y ∈ x.map w.narrow, (wire P swap k y).length = n :=
    fun y _ => (length_wire P swap k y).trans w.size.1
  have hdata := length_flatMap_const _ _ _ hwire
  rw [append_assoc, append_assoc] at hat
  obtain ⟨buf, r', hadj, hpeek, hat'⟩ := adjust_at hat hfill k.isAlign
  rw [hdata, length_map, ← hl] at hadj hpeek hat'
  have hpos : pos + (fill ++ ((x.map w.narrow).flatMap (wire P swap k) ++ [])).length =
      pos + fill.length + n * length.toNat := by
    simp only [append_nil, length_append, hdata, length_map, ← hl]
    omega
  have hne0 := ulen_ne_zero hl hne
  cases w with
  | ulong => exact absurd rfl h4
  | octet =>
    have hone : ¬1 = 2 := by decide
    have halign1 : Kind.octet.align = octetAlign := rfl
    have hbytes : (x.map WideKind.octet.narrow).flatMap (wire P swap .octet) =
        x.map toUInt8 := by
      have hwire1 : wire P swap .octet = fun c => [c] := by
        funext c
        cases swap <;> rfl
      rw [hwire1]
      exact flatMap_singleton' _
    have hback : (x.map toUInt8).map UInt8.toUInt32 = x := by
      rw [map_map]
      conv_rhs => rw [← map_id x]
      apply map_congr_left
      intro c hc
      exact WideKind.octet.widen_narrow (hsmall c hc)
    have htake : (x.map toUInt8).take length.toNat = x.map toUInt8 :=
      take_of_length_le (by rw [length_map, hl])
    simp only [readWcharArrayI, hne0, if_false, hn, hone, ← halign1, hadj, hpeek, hbytes, htake,
      hback, hat'.good, if_true]
    exact ⟨trivial, by rw [← hbytes, hpos]; exact hat'⟩
  | ushort =>
    have halign2 : Kind.ushort.align = shortAlign := rfl
    simp only [readWcharArrayI, hne0, if_false, hn, if_true, ← halign2, hadj, hpeek, hat'.good,
      hat'.swap, hpos]
    refine ⟨?_, hat'⟩
    have hc := chunks_flatMap (fun bs => ofNat (load P.endian
        (if swap = false then bs else swapElem P.endian shortSize bs)))
      (wire P swap .ushort) 2 (x.map WideKind.ushort.narrow) [] hwire
    rw [append_nil, length_map, map_map, ← hl] at hc
    rw [hc]
    congr 1
    conv_rhs => rw [← map_id x]
    apply map_congr_left
    intro c hcx
    have hmem := WideKind.ushort.load_toMem P.endian (hsmall c hcx)
    cases swap with
    | false => exact hmem
    | true =>
      have hrev := swapElem_eq P.endian (.inr (.inl rfl))
        ((length_wire P true .ushort (WideKind.ushort.narrow c)))
      have hback : swapElem P.endian shortSize
          (wire P true .ushort (WideKind.ushort.narrow c)) =
          Kind.ushort.toMem P.endian (WideKind.ushort.narrow c) := by
        refine hrev.trans ?_
        rw [wire, if_pos rfl, reverse_reverse]
      simp only [Function.comp_apply, Bool.true_eq_false, if_false, id_eq]
      rw [hback]
      exact hmem

theorem readWcharArray_reads (swap : Bool) (w : WideKind k n) (hn : P.wcharMaxbytes = n)
    (hle : n ≤ P.wcharSize) {x : List UInt32} (hsmall : ∀ c ∈ x, c.toNat < 256 ^ n)
    {length : UInt32} (hl : length.toNat = x.length) (hne : x ≠ []) :
    Reads swap [⟨k.align, (x.map w.narrow).flatMap (OutputCDR.wire P swap k)⟩] x
      (·.readWcharArray P length) := by
  intro r pos bs rest hat hlaid
  have hroom : n * x.length ≤ bs.length := by
    obtain ⟨fill, rest', rfl, -, -⟩ := hlaid.cons_inv
    have := length_flatMap_const (wire P swap k) n (x.map w.narrow)
      fun y _ => (length_wire P swap k y).trans w.size.1
    rw [length_map] at this
    simp only [length_append, this]
    omega
  have hbound := Reads.length_le hat
  simp only [readWcharArray]
  rw [if_neg (by rw [hn, hl, Nat.mul_comm]; omega)]
  by_cases hfull : P.wcharMaxbytes = P.wcharSize
  · have hws : P.wcharSize = k.size := (hfull.symm.trans hn).trans w.size.1.symm
    have hal : (if P.wcharSize = 2 then shortAlign else longAlign) = k.align := by
      have hk := w.size
      rw [hk.2]
      rw [hk.1] at hws
      rcases P.wcharSize_eq with h2 | h2 <;> rw [h2] <;> rw [h2] at hws <;> exact hws
    rw [if_neg (not_not.mpr hfull), hal, hws]
    obtain ⟨hv, hat'⟩ := readArray_reads (P := P) swap k (x.map w.narrow) (by simpa using hne)
      length (by simpa using hl) r pos bs rest hat hlaid
    refine ⟨?_, hat'⟩
    rw [hv, Option.map_some, hl, w.size.1, chunks_load w hsmall]
  · rw [if_pos hfull]
    have hne4 : n ≠ 4 := by
      rintro rfl
      rcases P.wcharSize_eq with h2 | h2 <;> omega
    exact readWcharArrayI_reads swap w hn hne4 hsmall hl hne r pos bs rest hat hlaid

/-- **Wide strings.** The reader takes the segments of the writer, and puts a NUL behind the
characters. -/
theorem readWstring_at (swap : Bool) (w : WideKind k n) (hn : P.wcharMaxbytes = n)
    (hle : n ≤ P.wcharSize) (x : WString n) (hx : n * x.val.length < 2 ^ 32) {r : InputCDR}
    (hv : r.version = (1, 2)) {pos : Nat} {bs rest : List UInt8} (hat : At swap r pos (bs ++ rest))
    (hlaid : Laid pos (OutputCDR.wideSegs P swap w x.val) bs) :
    (r.readWstring P).1 = some (x.val ++ [0]) ∧
      At swap (r.readWstring P).2 (pos + bs.length) rest := by
  have hsplit : wideSegs P swap w x.val =
      [seg P swap .ulong (ofNat (n * x.val.length))] ++
        (if x.val = [] then []
          else [⟨k.align, (x.val.map w.narrow).flatMap (wire P swap k)⟩]) := rfl
  rw [hsplit] at hlaid
  obtain ⟨cs, ds, rfl, hcs, hds⟩ := Laid.append_inv _ hlaid
  rw [append_assoc] at hat
  have hpos : 0 < n := by cases w <;> decide
  have hlen : (ofNat (n * x.val.length)).toNat = n * x.val.length := toNat_ofNat_of_lt' hx
  obtain ⟨hval, hat'⟩ := readScalar_reads (P := P) swap .ulong _ r pos cs (ds ++ rest) hat hcs
  have e1 : r.readUlong P = (some (ofNat (n * x.val.length)), (r.readScalar P .ulong).2) :=
    Prod.ext hval rfl
  have hver : (r.readScalar P .ulong).2.version = (1, 2) := (version_readScalar r .ulong).trans hv
  simp only [version, Prod.mk.injEq] at hver
  have hnz : ¬P.wcharMaxbytes = 0 := by omega
  simp only [readWstring, hnz, if_false, e1]
  by_cases hne : x.val = []
  · have hzero : ofNat (n * x.val.length) = 0 := by
      rw [hne]
      rfl
    rw [if_pos hne] at hds
    obtain rfl := hds.nil_inv
    rw [if_neg (by rw [hzero]; simp), if_pos hzero, hne]
    rw [append_nil]
    exact ⟨rfl, hat'⟩
  · rw [if_neg hne] at hds
    have hcount : ofNat (n * x.val.length) / ofNat n =
        ofNat x.val.length := by
      apply UInt32.toNat_inj.mp
      have hlt : x.val.length < 2 ^ 32 := lt_of_le_of_lt (Nat.le_mul_of_pos_left _ hpos) hx
      have hnlt : n < 2 ^ 32 := by cases w <;> decide
      rw [UInt32.toNat_div, hlen, UInt32.toNat_ofNat_of_lt' hlt, UInt32.toNat_ofNat_of_lt' hnlt,
        Nat.mul_div_cancel_left _ hpos]
    have hlt : x.val.length < 2 ^ 32 := lt_of_le_of_lt (Nat.le_mul_of_pos_left _ hpos) hx
    have hl : (ofNat x.val.length).toNat = x.val.length := toNat_ofNat_of_lt' hlt
    have hread := readWcharArray_reads (P := P) swap w hn hle x.small hl hne
    obtain ⟨hchars, hat''⟩ := hread _ _ ds rest hat' hds
    have hroom : n * x.val.length ≤ (r.readScalar P .ulong).2.length := by
      have hbound := Reads.length_le hat'
      obtain ⟨fill, rest', rfl, -, -⟩ := hds.cons_inv
      have := length_flatMap_const (wire P swap k) n (x.val.map w.narrow)
        fun y _ => (length_wire P swap k y).trans w.size.1
      rw [length_map] at this
      simp only [length_append, this] at hbound
      omega
    have hlpos : 0 < x.val.length := length_pos_iff.mpr hne
    have hpos' : 0 < ofNat (n * x.val.length) := by
      rw [lt_iff_toNat_lt, hlen]
      exact Nat.mul_pos hpos hlpos
    have e2 : (r.readScalar P .ulong).2.readWcharArray P (ofNat x.val.length) =
        (some x.val, ((r.readScalar P .ulong).2.readWcharArray P
          (ofNat x.val.length)).2) := Prod.ext hchars rfl
    rw [if_pos ⟨hpos', by omega⟩, if_pos hver, hn, hcount, e2]
    refine ⟨rfl, ?_⟩
    rw [length_append, ← Nat.add_assoc]
    exact hat''

end InputCDR

end Atcd.Cdr
