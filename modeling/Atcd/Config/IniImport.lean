import Mathlib
/-!
# `ACE_Ini_ImpExp::import_config`: lines in a buffer

A line is read into a buffer and cut into its name and its value there; `squish` takes the
white space off. It starts behind the last character of the string and goes back until it
is at the first one. In the empty string it starts in front of it, and is never there.

The memory is what `fgets` wrote, with its NUL; reading in front of it or behind it is
`none`.

* `import_iff`: an import stays in the buffer if and only if it comes to no line without a
  string and none whose first character, but for white space, is `=`.
-/
namespace Atcd.Config

open List Option

/-- In the C locale. -/
def isSpace (c : UInt8) : Bool := c == 32 || (9 ≤ c && c ≤ 13)

def strlen (buffer : List UInt8) (p : Nat) : Option Nat := (buffer.drop p).findIdx? (· == 0)

/-- The string at a position. -/
def cstring (buffer : List UInt8) (p : Nat) : Option (List UInt8) :=
  (strlen buffer p).map fun n => (buffer.drop p).take n

/-- The first loop of `squish`, with `cp + 1`. -/
def chop (buffer : List UInt8) (src : Nat) : Nat → Option Nat
  | 0 => none
  | cp + 1 =>
    if cp = src then some (cp + 1)
    else buffer[cp]?.bind fun c => if isSpace c then chop buffer src cp else some (cp + 1)

/-- The memory and the string's new start.
mirrors ACE/ace/Configuration_Import_Export.cpp:646-667 -/
def squish (buffer : List UInt8) (src : Nat) : Option (List UInt8 × Nat) :=
  (strlen buffer src).bind fun n => (chop buffer src (src + n)).bind fun cp =>
    let buffer := buffer.set cp 0
    ((buffer.drop src).findIdx? fun c => !isSpace c).map fun i => (buffer, src + i)

/-- What a line is. -/
inductive Line
  | skip
  | malformed
  | sectionPath (path : List UInt8)
  | value (name value : List UInt8)
deriving DecidableEq

def strrchr (s : List UInt8) (c : UInt8) : Option Nat :=
  (s.reverse.findIdx? (· == c)).map (s.length - 1 - ·)

/-- A string that is enclosed in quotes: the memory and the start without them. -/
def stripQuotes (buffer : List UInt8) (p : Nat) : Option (List UInt8 × Nat) :=
  (cstring buffer p).map fun v =>
    if 0 < v.length ∧ v.head? = some 34 ∧ v.getLast? = some 34 then
      (buffer.set (p + (v.length - 1)) 0, p + 1)
    else (buffer, p)

/-- The line behind the first `=`, at `i`. -/
def importValue (buffer : List UInt8) (line i : Nat) : Option Line :=
  (squish (buffer.set (line + i) 0) line).bind fun (buffer, name) =>
    (squish buffer (line + (i + 1))).bind fun (buffer, value) =>
      (stripQuotes buffer value).bind fun (buffer, value) =>
        (cstring buffer name).bind fun n => (cstring buffer value).map fun v => .value n v

/-- mirrors Configuration_Import_Export.cpp:419-485 -/
def importLine (buffer : List UInt8) : Option Line :=
  (squish buffer 0).bind fun (buffer, line) => (cstring buffer line).bind fun s =>
    if s.head? = some 59 ∨ s.head? = some 35 ∨ s = [] then some .skip
    else if s.head? = some 91 then
      match strrchr s 93 with
      | none => some .malformed
      | some i => (cstring (buffer.set (line + i) 0) (line + 1)).map .sectionPath
    else
      match s.findIdx? (· == 61) with
      | none => some .malformed
      | some i => importValue buffer line i

/-- The length of the line that `fgets` reads. -/
def fgetsLength (limit : Nat) (file : List UInt8) : Nat :=
  min (limit - 1) (match file.findIdx? (· == 10) with | some i => i + 1 | none => file.length)

/-- All lines; there are at most as many as characters. -/
def lines (limit : Nat) : Nat → List UInt8 → List (List UInt8)
  | 0, _ => []
  | n + 1, file =>
    if file = [] then []
    else file.take (fgetsLength limit file) :: lines limit n (file.drop (fgetsLength limit file))

/-- The lines that the import comes to. It ends at a line that is malformed, or that the
configuration does not accept; behind a line that left the buffer nothing can be said.
mirrors Configuration_Import_Export.cpp:401-496 -/
def reached (accepts : Nat → Bool) : Nat → List (List UInt8) → List (List UInt8)
  | _, [] => []
  | i, l :: ls =>
    l :: match importLine (l ++ [0]) with
      | none | some .malformed => []
      | some .skip => reached accepts (i + 1) ls
      | some _ => if accepts i then reached accepts (i + 1) ls else []

/-- `sizeof buffer`, for characters of so many bytes. -/
def limit (charSize : Nat) : Nat := 4096 * charSize

/-- Every line that is reached fits the buffer and is handled inside it. -/
def StaysInside (charSize : Nat) (accepts : Nat → Bool) (file : List UInt8) : Prop :=
  ∀ l ∈ reached accepts 0 (lines (limit charSize) file.length file),
    l.length < 4096 ∧ (importLine (l ++ [0])).isSome

def text (l : List UInt8) : List UInt8 := l.takeWhile (· != 0)

def trim (s : List UInt8) : List UInt8 := (s.rdropWhile isSpace).dropWhile isSpace

/-- The line has a string, which does not start with `=`. -/
def Named (l : List UInt8) : Prop := text l ≠ [] ∧ (trim (text l)).head? ≠ some 61

/-! ## `squish` -/

def NulFree (s : List UInt8) : Prop := ∀ c ∈ s, c ≠ 0

variable {s : List UInt8}

theorem findIdx?_nul (h : NulFree s) (post : List UInt8) :
    (s ++ 0 :: post).findIdx? (· == 0) = some s.length := by
  induction s with
  | nil => rfl
  | cons c s ih =>
    have hc : (c == 0) = false := by simpa using h c mem_cons_self
    simp [findIdx?_cons, hc, ih fun d hd => h d (mem_cons_of_mem _ hd)]

theorem cstring_eq (h : NulFree s) (pre post : List UInt8) :
    cstring (pre ++ (s ++ 0 :: post)) pre.length = some s := by
  simp [cstring, strlen, findIdx?_nul h]

theorem cstring_split {buffer : List UInt8} {p : Nat} (h : cstring buffer p = some s) :
    ∃ pre post, buffer = pre ++ (s ++ 0 :: post) ∧ p = pre.length ∧ NulFree s := by
  obtain ⟨n, hn, rfl⟩ := map_eq_some_iff.mp h
  obtain ⟨hlt, hzero, hbefore⟩ := findIdx?_eq_some_iff_getElem.mp hn
  have hdrop : buffer.drop p = (buffer.drop p).take n ++ 0 :: (buffer.drop p).drop (n + 1) := by
    conv_lhs => rw [← take_append_drop n (buffer.drop p), drop_eq_getElem_cons hlt]
    rw [beq_iff_eq.mp hzero]
  refine ⟨buffer.take p, (buffer.drop p).drop (n + 1), ?_, ?_, fun c hc => ?_⟩
  · rw [← hdrop, take_append_drop]
  · rw [length_drop] at hlt
    rw [length_take]
    omega
  · obtain ⟨i, hi, rfl⟩ := getElem_of_mem hc
    rw [length_take] at hi
    simpa using hbefore i (by omega)

/-- White space behind the first character is passed over. -/
theorem chop_blanks (pre post : List UInt8) (a : UInt8) {t w : List UInt8} {e : UInt8}
    (hw : ∀ c ∈ w, isSpace c = true) (ht : t = [] ∨ ∃ u e, t = u ++ [e] ∧ isSpace e = false) :
    chop (pre ++ (a :: t ++ (w ++ e :: post))) pre.length (pre.length + (t ++ w).length + 1) =
      some (pre.length + t.length + 1) := by
  induction w using reverseRecOn generalizing e post with
  | nil =>
    rw [append_nil, chop]
    obtain rfl | ⟨u, f, rfl, hf⟩ := ht
    · simp
    · have hget : (pre ++ (a :: (u ++ [f]) ++ ([] ++ e :: post)))[pre.length + (u ++ [f]).length]? =
          some f := by
        simp
      rw [hget]
      simp [hf]
  | append_singleton w b ih =>
    have hb : isSpace b = true := hw b (by simp)
    have hlen : pre.length + (t ++ (w ++ [b])).length =
        pre.length + (t ++ w).length + 1 := by simp; omega
    have hne : pre.length + (t ++ w).length + 1 ≠ pre.length := by omega
    have hget : (pre ++ (a :: t ++ (w ++ [b] ++ e :: post)))[pre.length + (t ++ w).length + 1]? =
        some b := by
      have hbuf : pre ++ (a :: t ++ (w ++ [b] ++ e :: post)) =
          (pre ++ a :: (t ++ w)) ++ b :: e :: post := by simp
      have hl : (pre ++ a :: (t ++ w)).length = pre.length + (t ++ w).length + 1 := by
        simp
        omega
      rw [hbuf, getElem?_append_right (by omega), hl, Nat.sub_self]
      rfl
    rw [hlen, chop, if_neg hne, hget]
    simp only [bind_some, hb, if_true]
    have hrest := ih (e := b) (e :: post) fun c hc => hw c (mem_append_left _ hc)
    simpa using hrest

/-- **`squish` of a string that is not empty**: what is passed over in front, the string
without white space, and the place of what is behind it. -/
theorem squish_eq (pre post : List UInt8) (hs : NulFree s) (hne : s ≠ []) :
    ∃ lead x, squish (pre ++ (s ++ 0 :: post)) pre.length =
        some (pre ++ lead ++ (trim s ++ 0 :: (x ++ post)), (pre ++ lead).length) ∧
      (∀ c ∈ lead, isSpace c = true) ∧ (x = [] ∨ ∃ y, x = y ++ [0]) ∧
      (lead ++ trim s ++ x).length = s.length := by
  obtain ⟨a, s, rfl⟩ := exists_cons_of_ne_nil hne
  obtain ⟨t, w, rfl, hw, ht⟩ : ∃ t w, s = t ++ w ∧ (∀ c ∈ w, isSpace c = true) ∧
      (t = [] ∨ ∃ u e, t = u ++ [e] ∧ isSpace e = false) := by
    refine ⟨s.rdropWhile isSpace, s.rtakeWhile isSpace, ?_, ?_, ?_⟩
    · exact rdropWhile_append_rtakeWhile.symm
    · exact fun c hc => mem_rtakeWhile_imp hc
    · by_cases hnil : s.rdropWhile isSpace = []
      · exact Or.inl hnil
      · refine Or.inr ⟨_, _, (dropLast_append_getLast hnil).symm, ?_⟩
        simpa using rdropWhile_last_not isSpace s hnil
  have htrim : trim (a :: (t ++ w)) = (a :: t).dropWhile isSpace := by
    have hr : (a :: (t ++ w)).rdropWhile isSpace = (a :: t).rdropWhile isSpace := by
      rw [← cons_append]
      clear ht hs hne
      induction w using reverseRecOn with
      | nil => simp
      | append_singleton w b ih =>
        rw [← append_assoc, rdropWhile_concat_pos _ _ _ (hw b (by simp))]
        exact ih fun c hc => hw c (mem_append_left _ hc)
    rw [trim, hr]
    obtain rfl | ⟨u, e, rfl, he⟩ := ht
    · cases ha : isSpace a <;> simp [rdropWhile_singleton, ha]
    · rw [← cons_append, rdropWhile_concat_neg _ _ _ (by simp [he])]
  have hlen : strlen (pre ++ (a :: (t ++ w) ++ 0 :: post)) pre.length =
      some ((t ++ w).length + 1) := by
    rw [strlen, drop_left, findIdx?_nul hs]
    rfl
  have hchop : chop (pre ++ (a :: (t ++ w) ++ 0 :: post)) pre.length
      (pre.length + ((t ++ w).length + 1)) = some (pre.length + t.length + 1) := by
    have h := chop_blanks pre post a (e := 0) hw ht
    simpa [Nat.add_assoc] using h
  obtain ⟨x, hset, hx, hxlen⟩ : ∃ x, (pre ++ (a :: (t ++ w) ++ 0 :: post)).set
      (pre.length + t.length + 1) 0 = pre ++ (a :: t ++ 0 :: (x ++ post)) ∧
      (x = [] ∨ ∃ y, x = y ++ [0]) ∧ x.length = w.length := by
    have hat : pre.length + t.length + 1 = (pre ++ a :: t).length := by
      simp
      omega
    cases w with
    | nil => exact ⟨[], by rw [hat]; simp, Or.inl rfl, rfl⟩
    | cons f w => exact ⟨w ++ [0], by rw [hat]; simp, Or.inr ⟨w, rfl⟩, by simp⟩
  have hsplit : (a :: t).takeWhile isSpace ++ (a :: t).dropWhile isSpace = a :: t :=
    takeWhile_append_dropWhile
  have hskip : ((a :: t ++ 0 :: (x ++ post)).findIdx? fun c => !isSpace c) =
      some ((a :: t).takeWhile isSpace).length := by
    generalize a :: t = v
    induction v with
    | nil => rfl
    | cons c v ih =>
      cases hc : isSpace c
      · simp [findIdx?_cons, hc]
      · simp [findIdx?_cons, hc, ih]
  refine ⟨(a :: t).takeWhile isSpace, x, ?_, fun c hc => mem_takeWhile_imp hc, hx, ?_⟩
  · simp only [squish, hlen, bind_some, hchop, hset, drop_left, hskip, map_some, htrim]
    rw [append_assoc pre, ← append_assoc (takeWhile _ _), hsplit, length_append]
  · rw [htrim, hsplit, length_append, hxlen]
    simp only [length_cons, length_append]
    omega

theorem trim_nulFree (h : NulFree s) : NulFree (trim s) := fun c hc =>
  h c ((List.rdropWhile_prefix isSpace s).subset ((dropWhile_sublist _).subset hc))

/-- In front of an empty string there has to be something other than white space. -/
theorem squish_nil_none {pre : List UInt8} (h : ∀ c ∈ pre, isSpace c = true) (post : List UInt8) :
    squish (pre ++ 0 :: post) pre.length = none := by
  have hchop : ∀ k ≤ pre.length, chop (pre ++ 0 :: post) pre.length k = none := by
    intro k hk
    induction k with
    | zero => rfl
    | succ k ih =>
      have hget : (pre ++ 0 :: post)[k]? = some (pre.get ⟨k, hk⟩) := by
        rw [getElem?_append_left hk]
        exact getElem?_eq_getElem hk
      rw [chop, if_neg (by omega), hget, bind_some, h _ (get_mem _ _)]
      exact ih (by omega)
  simp [squish, strlen, findIdx?_cons, hchop pre.length le_rfl]

theorem squish_nil_some (pre post : List UInt8) {c : UInt8} (hc : isSpace c = false) :
    squish (pre ++ [c] ++ 0 :: post) (pre ++ [c]).length =
      some (pre ++ [c] ++ 0 :: post, (pre ++ [c]).length) := by
  have hspace : isSpace 0 = false := rfl
  simp [squish, strlen, findIdx?_cons, chop, hc, hspace]

/-! ## Lines -/

/-- There is a NUL at or behind the position. -/
theorem cstring_isSome {buffer : List UInt8} {p j : Nat} (hj : buffer[j]? = some 0) (hp : p ≤ j) :
    (cstring buffer p).isSome := by
  rw [cstring, Option.isSome_map, strlen, List.findIdx?_isSome, List.any_eq_true]
  refine ⟨0, ?_, by simp⟩
  have hget : (buffer.drop p)[j - p]? = some 0 := by
    rw [getElem?_drop, Nat.add_sub_cancel' hp]
    exact hj
  exact mem_of_getElem? hget

theorem set_nul {buffer : List UInt8} {j : Nat} (hj : buffer[j]? = some 0) (i : Nat) :
    (buffer.set i 0)[j]? = some 0 := by
  obtain ⟨hlt, hget⟩ := List.getElem?_eq_some_iff.mp hj
  rw [getElem?_eq_some_iff]
  refine ⟨by simpa using hlt, ?_⟩
  rw [getElem_set]
  split
  · rfl
  · exact hget

theorem nul_at (pre post : List UInt8) {j : Nat} (h : j = pre.length) :
    (pre ++ 0 :: post)[j]? = some 0 := by
  subst h
  simp

theorem stripQuotes_isSome (pre post : List UInt8) {v : List UInt8} (hv : NulFree v) {p j : Nat}
    (hj : pre[j]? = some 0) (hp : p ≤ j) :
    ((stripQuotes (pre ++ (v ++ 0 :: post)) pre.length).bind fun (buffer, value) =>
      (cstring buffer p).bind fun n =>
        (cstring buffer value).map fun v => Line.value n v).isSome := by
  have hlast : (pre ++ (v ++ 0 :: post))[pre.length + v.length]? = some 0 := by
    rw [← append_assoc]
    exact nul_at _ _ (by simp)
  have hfirst : (pre ++ (v ++ 0 :: post))[j]? = some 0 := by
    rw [List.getElem?_append_left (List.getElem?_eq_some_iff.mp hj).1]
    exact hj
  rw [stripQuotes, cstring_eq hv, map_some, bind_some]
  by_cases hquoted : 0 < v.length ∧ v.head? = some 34 ∧ v.getLast? = some 34
  · have hend : pre.length + 1 ≤ pre.length + v.length := Nat.add_le_add_left hquoted.1 _
    obtain ⟨n, hn⟩ := isSome_iff_exists.mp
      (cstring_isSome (set_nul hfirst (pre.length + (v.length - 1))) hp)
    obtain ⟨w, hw⟩ := isSome_iff_exists.mp
      (cstring_isSome (set_nul hlast (pre.length + (v.length - 1))) hend)
    simp only [if_pos hquoted, bind_some, hn, hw, map_some, isSome_some]
  · obtain ⟨n, hn⟩ := isSome_iff_exists.mp (cstring_isSome hfirst hp)
    simp [hquoted, hn, cstring_eq hv]

theorem importValue_isSome (lead post : List UInt8) {a b : List UInt8} (ha : NulFree a)
    (hb : NulFree b) (hne : a ≠ []) :
    (importValue (lead ++ (a ++ 61 :: b ++ 0 :: post)) lead.length a.length).isSome := by
  have hset : (lead ++ (a ++ 61 :: b ++ 0 :: post)).set (lead.length + a.length) 0 =
      lead ++ (a ++ 0 :: (b ++ 0 :: post)) := by
    simp
  obtain ⟨skip, x, hname, -, hx, hlen⟩ := squish_eq lead (b ++ 0 :: post) ha hne
  rw [importValue, hset, hname, bind_some]
  -- What is in front of the value: the name, and at its end a NUL.
  obtain ⟨q, hq⟩ : ∃ q, lead ++ skip ++ (trim a ++ 0 :: x) = q ++ [0] := by
    obtain rfl | ⟨y, rfl⟩ := hx
    · exact ⟨lead ++ skip ++ trim a, by simp⟩
    · exact ⟨lead ++ skip ++ (trim a ++ 0 :: y), by simp⟩
  have hbuf : lead ++ skip ++ (trim a ++ 0 :: (x ++ (b ++ 0 :: post))) =
      q ++ [0] ++ (b ++ 0 :: post) := by
    rw [← hq]
    simp
  have hpos : lead.length + (a.length + 1) = (q ++ [0]).length := by
    rw [← hq, ← hlen]
    simp only [length_append, length_cons]
    omega
  have hnul : (q ++ [0] : List UInt8)[(lead ++ skip ++ trim a).length]? = some 0 := by
    rw [← hq, ← append_assoc]
    exact nul_at _ _ rfl
  have hle : (lead ++ skip).length ≤ (lead ++ skip ++ trim a).length := by simp
  simp only [hbuf, hpos]
  cases b with
  | nil =>
    have hvalue := squish_nil_some q post (show isSpace 0 = false from rfl)
    rw [nil_append, hvalue, bind_some]
    exact stripQuotes_isSome (q ++ [0]) post (show NulFree [] from nofun) hnul hle
  | cons d b =>
    obtain ⟨skip', z, hvalue, -⟩ := squish_eq (q ++ [0]) post hb (cons_ne_nil d b)
    rw [hvalue, bind_some]
    refine stripQuotes_isSome _ _ (trim_nulFree hb) ?_ hle
    rw [List.getElem?_append_left (List.getElem?_eq_some_iff.mp hnul).1]
    exact hnul

theorem text_nulFree (l : List UInt8) : NulFree (text l) := fun c hc => by
  simpa using mem_takeWhile_imp hc

theorem text_split (l : List UInt8) : ∃ post, l ++ [0] = text l ++ 0 :: post := by
  induction l with
  | nil => exact ⟨[], rfl⟩
  | cons c l ih =>
    obtain ⟨post, hpost⟩ := ih
    by_cases hc : c = 0
    · exact ⟨l ++ [0], by simp [text, hc]⟩
    · refine ⟨post, ?_⟩
      have htext : text (c :: l) = c :: text l := by simp [text, hc]
      rw [htext, cons_append, hpost]
      rfl

/-- **A line** is handled inside the buffer if and only if it has a name, or no need of one. -/
theorem importLine_isSome_iff (l : List UInt8) : (importLine (l ++ [0])).isSome ↔ Named l := by
  obtain ⟨post, hpost⟩ := text_split l
  have hnul := text_nulFree l
  rw [hpost, Named]
  generalize text l = s at hnul
  by_cases hne : s = []
  · subst hne
    have hfront : ∀ c ∈ ([] : List UInt8), isSpace c = true := by simp
    have hnone := squish_nil_none hfront post
    rw [nil_append, length_nil] at hnone
    simp [importLine, hnone]
  obtain ⟨lead, x, hsquish, hlead, -⟩ := squish_eq [] post hnul hne
  simp only [nil_append, length_nil] at hsquish
  have ht := trim_nulFree hnul
  rw [importLine, hsquish, bind_some]
  simp only [cstring_eq ht, bind_some, ne_eq, hne, not_false_eq_true, true_and]
  generalize trim s = t at ht
  split
  · rename_i hskip
    refine iff_of_true rfl fun heq => ?_
    rw [heq] at hskip
    simp at hskip
    simp [hskip] at heq
  rename_i hskip
  split
  · rename_i hbracket
    refine iff_of_true ?_ (by rw [hbracket]; decide)
    cases strrchr t 93 with
    | none => rfl
    | some i =>
      have hend : lead.length + 1 ≤ lead.length + t.length := by
        have := length_pos_iff.mpr fun h : t = [] => hskip (Or.inr (Or.inr h))
        omega
      rw [isSome_map]
      refine cstring_isSome (set_nul (j := lead.length + t.length) ?_ _) hend
      rw [← append_assoc]
      exact nul_at _ _ (by simp)
  · cases hidx : t.findIdx? (· == 61) with
    | none =>
      refine iff_of_true rfl fun heq => ?_
      have hmem := mem_of_head? heq
      simpa using findIdx?_eq_none_iff.mp hidx 61 hmem
    | some i =>
      obtain ⟨hlt, heq, hbefore⟩ := findIdx?_eq_some_iff_getElem.mp hidx
      have hsplit : t = t.take i ++ 61 :: t.drop (i + 1) := by
        conv_lhs => rw [← take_append_drop i t, drop_eq_getElem_cons hlt]
        rw [beq_iff_eq.mp heq]
      have hleft : NulFree (t.take i) := fun c hc => ht c (mem_of_mem_take hc)
      have hright : NulFree (t.drop (i + 1)) := fun c hc => ht c (mem_of_mem_drop hc)
      have hi : i = (t.take i).length := by
        rw [length_take]
        omega
      generalize t.take i = a at hsplit hleft hi
      generalize t.drop (i + 1) = b at hsplit hright
      subst hsplit
      simp only [hi]
      by_cases ha : a = []
      · subst ha
        refine iff_of_false ?_ (by simp)
        have hnone := squish_nil_none hlead (b ++ 0 :: (x ++ post))
        simp [importValue, hnone]
      · refine iff_of_true (importValue_isSome lead _ hleft hright ha) ?_
        cases a with
        | nil => exact absurd rfl ha
        | cons c a =>
          have hc : (c == 61) = false := by
            simpa using hbefore 0 (by rw [hi]; simp)
          simpa using hc

/-- Whenever `squish` stays in the memory, the string is the one without white space. -/
theorem squish_exact {buffer : List UInt8} {p : Nat} {r : List UInt8 × Nat}
    (hs : cstring buffer p = some s) (hr : squish buffer p = some r) :
    cstring r.1 r.2 = some (trim s) := by
  obtain ⟨pre, post, rfl, rfl, hnul⟩ := cstring_split hs
  by_cases hne : s = []
  · subst hne
    obtain ⟨n, -, hr⟩ := bind_eq_some_iff.mp hr
    obtain ⟨k, -, hr⟩ := bind_eq_some_iff.mp hr
    obtain ⟨i, hi, rfl⟩ := map_eq_some_iff.mp hr
    have hzero := set_nul (nul_at pre post rfl) k
    obtain ⟨rest, hrest⟩ : ∃ rest, ((pre ++ 0 :: post).set k 0).drop pre.length = 0 :: rest := by
      obtain ⟨hlt, hget⟩ := List.getElem?_eq_some_iff.mp hzero
      exact ⟨_, by rw [drop_eq_getElem_cons hlt, hget]⟩
    rw [nil_append, hrest] at hi
    cases hi
    simp [cstring, strlen, hrest, trim, findIdx?_cons]
  · obtain ⟨lead, x, hsquish, -⟩ := squish_eq pre post hnul hne
    rw [hsquish] at hr
    cases hr
    exact cstring_eq (trim_nulFree hnul) _ _

/-- **The import stays in the buffer** if and only if every line that it comes to fits it, has
a string, and a name in front of its `=`; and `squish` is exact. -/
theorem import_iff (charSize : Nat) (accepts : Nat → Bool) (file : List UInt8) :
    (StaysInside charSize accepts file ↔
      ∀ l ∈ reached accepts 0 (lines (limit charSize) file.length file),
        l.length < 4096 ∧ Named l) ∧
    ∀ buffer p s r, cstring buffer p = some s → squish buffer p = some r →
      cstring r.1 r.2 = some (trim s) := by
  refine ⟨?_, fun _ _ _ _ hs hr => squish_exact hs hr⟩
  refine forall₂_congr fun l _ => ?_
  rw [importLine_isSome_iff]

/-- A value without a name: `squish` looks in front of the buffer. -/
theorem nameless_value_leaves : ¬StaysInside 1 (fun _ => true) [61, 120, 10] := by
  intro h
  exact absurd (h [61, 120, 10] (by decide)).2 (by decide)

end Atcd.Config
