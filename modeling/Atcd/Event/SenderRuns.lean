import Atcd.Event.MessageSender
/-!
# What the sender sends

The fragments of a message are its bytes cut into pieces (`layout`). The lengths of the
blocks decide where: `Cut` says for each block how many fragments are complete behind it,
and how many bytes and entries the next one has. The last piece is empty if and only if
there are empty blocks behind the point where all bytes are in complete fragments
(`Cut.Trailing`).

Results:
- `sendMessage_layout`: the fragments, their number and what stands in their headers.
-/
namespace Atcd.Event

open List Sending
open Atcd.Core (pieceStart)

/-! ## Cutting -/

/-- Behind a block: complete fragments, and bytes and entries (with the header's) of the
next one. -/
structure Cut where
  full : Nat
  size : Nat
  slots : Nat
deriving DecidableEq

namespace Cut

/-- The last fragment of a block has from one byte to `max`. -/
def block (max writevMax : Nat) (c : Cut) (l : Nat) : Cut :=
  let t := c.size + l
  let full := if t > max then (t - 1) / max else 0
  let size := if t > max then (t - 1) % max + 1 else t
  let slots := if t > max then 2 else c.slots + 1
  if size = max ∨ slots = writevMax then ⟨c.full + full + 1, 0, 1⟩
  else ⟨c.full + full, size, slots⟩

def blocks (max writevMax : Nat) (lengths : List Nat) : Cut :=
  lengths.foldl (block max writevMax) ⟨0, 0, 1⟩

/-- The number of fragments. -/
def fragments (max writevMax : Nat) (lengths : List Nat) : Nat :=
  let c := blocks max writevMax lengths
  if c.slots = 1 then c.full else c.full + 1

/-- An empty block stands behind all bytes, at a point where no fragment is begun. -/
def Trailing (max writevMax : Nat) (lengths : List Nat) : Prop :=
  ∃ front rest, lengths = front ++ rest ∧ rest ≠ [] ∧ (∀ l ∈ rest, l = 0) ∧
    (blocks max writevMax front).slots = 1

/-- No fragment gets longer than the bound. -/
def Fits (max writevMax bound : Nat) (lengths : List Nat) : Prop :=
  ∀ front l rest, lengths = front ++ l :: rest →
    min ((blocks max writevMax front).size + l) max ≤ bound

variable {max writevMax : Nat}

theorem block_short {c : Cut} {l : Nat} (h : ¬c.size + l > max) :
    c.block max writevMax l =
      if c.size + l = max ∨ c.slots + 1 = writevMax then ⟨c.full + 1, 0, 1⟩
      else ⟨c.full, c.size + l, c.slots + 1⟩ := by
  unfold block
  dsimp only
  rw [if_neg h, if_neg h, if_neg h]
  rfl

theorem block_long {c : Cut} {l k rest : Nat} (h : c.size + l = max * k + rest) (hk : 0 < k)
    (hrest : 0 < rest) (hle : rest ≤ max) :
    c.block max writevMax l =
      if rest = max ∨ 2 = writevMax then ⟨c.full + k + 1, 0, 1⟩ else ⟨c.full + k, rest, 2⟩ := by
  have hpos : 0 < max := by omega
  have hprev : c.size + l - 1 = max * k + (rest - 1) := by omega
  have hdiv : (c.size + l - 1) / max = k := by
    rw [hprev, Nat.mul_add_div hpos, Nat.div_eq_of_lt (by omega), Nat.add_zero]
  have hmod : (c.size + l - 1) % max + 1 = rest := by
    rw [hprev, Nat.mul_add_mod, Nat.mod_eq_of_lt (by omega)]
    omega
  have hlong : c.size + l > max := by
    have hmul := Nat.le_mul_of_pos_right max hk
    omega
  unfold block
  dsimp only
  rw [if_pos hlong, if_pos hlong, if_pos hlong, hdiv, hmod]

theorem block_lt (hmax : 0 < max) (hlimit : 2 ≤ writevMax) {c : Cut} (hslots : c.slots < writevMax)
    (l : Nat) : (c.block max writevMax l).size < max ∧ (c.block max writevMax l).slots < writevMax := by
  have hmod := Nat.mod_lt (c.size + l - 1) hmax
  unfold block
  dsimp only
  split
  · split
    next => exact ⟨hmax, hlimit⟩
    next h =>
      dsimp only
      omega
  · split
    next => exact ⟨hmax, hlimit⟩
    next h =>
      dsimp only
      omega

theorem blocks_concat (lengths : List Nat) (l : Nat) :
    blocks max writevMax (lengths ++ [l]) = (blocks max writevMax lengths).block max writevMax l := by
  simp [blocks]

theorem trailing_concat (lengths : List Nat) (l : Nat) :
    Trailing max writevMax (lengths ++ [l]) ↔
      l = 0 ∧ (Trailing max writevMax lengths ∨ (blocks max writevMax lengths).slots = 1) := by
  constructor
  · rintro ⟨front, rest, hsplit, hne, hzero, hslots⟩
    obtain ⟨rest, a, rfl⟩ := eq_nil_or_concat rest |>.resolve_left hne
    rw [concat_eq_append] at hsplit hzero
    rw [← append_assoc] at hsplit
    obtain ⟨rfl, ha⟩ := append_inj' hsplit rfl
    cases ha
    refine ⟨hzero l (by simp), ?_⟩
    by_cases hrest : rest = []
    · rw [hrest, append_nil]
      exact .inr hslots
    · exact .inl ⟨front, rest, rfl, hrest, fun x hx => hzero x (by simp [hx]), hslots⟩
  · rintro ⟨rfl, ⟨front, rest, rfl, hne, hzero, hslots⟩ | hslots⟩
    · refine ⟨front, rest ++ [0], by simp, by simp, ?_, hslots⟩
      intro x hx
      rcases mem_append.mp hx with hx | hx
      · exact hzero x hx
      · exact mem_singleton.mp hx
    · exact ⟨lengths, [0], rfl, by simp, by simp, hslots⟩

theorem not_trailing_nil : ¬Trailing max writevMax [] := by
  rintro ⟨front, rest, hsplit, hne, -⟩
  exact hne (append_eq_nil_iff.mp hsplit.symm).2

theorem fits_concat {bound : Nat} (lengths : List Nat) (l : Nat) :
    Fits max writevMax bound (lengths ++ [l]) ↔ Fits max writevMax bound lengths ∧
      min ((blocks max writevMax lengths).size + l) max ≤ bound := by
  constructor
  · intro h
    refine ⟨fun front a rest hsplit => h front a (rest ++ [l]) ?_, h lengths l [] rfl⟩
    rw [hsplit, append_assoc, cons_append]
  · rintro ⟨hfits, hlast⟩ front a rest hsplit
    rcases eq_nil_or_concat rest with rfl | ⟨rest, b, rfl⟩
    · obtain ⟨rfl, ha⟩ := append_inj' hsplit rfl
      cases ha
      exact hlast
    · rw [concat_eq_append, ← cons_append, ← append_assoc] at hsplit
      obtain ⟨rfl, -⟩ := append_inj' hsplit rfl
      exact hfits front a rest rfl

end Cut

/-! ## The layout -/

/-- The fragment of a piece. -/
def layoutAt (r : Request) (ps : List (List UInt8)) (i : Nat) : Fragment where
  requestId := r.id
  requestSize := r.size
  size := (ps.getD i []).length
  offset := pieceStart ps i
  id := i % 2 ^ 32
  count := r.count
  data := ps.getD i []

def layout (r : Request) (ps : List (List UInt8)) : List Fragment :=
  (List.range ps.length).map (layoutAt r ps)

theorem layout_concat (r : Request) (ps : List (List UInt8)) (p : List UInt8) :
    layout r (ps ++ [p]) = layout r ps ++
      [{ requestId := r.id
         requestSize := r.size
         size := p.length
         offset := ps.flatten.length
         id := ps.length % 2 ^ 32
         count := r.count
         data := p }] := by
  unfold layout
  rw [length_append, length_singleton, range_succ, map_append]
  congr 1
  · refine map_congr_left fun i hi => ?_
    have hlt : i < ps.length := mem_range.mp hi
    have htake : (ps ++ [p]).take i = ps.take i := take_append_of_le_length hlt.le
    simp [layoutAt, pieceStart, getElem?_append_left hlt, htake]
  · simp [layoutAt, pieceStart]

/-! ## One block -/

/-- What has been sent is the layout of the pieces. -/
structure Sound (r : Request) (s : Sending) (ps : List (List UInt8)) : Prop where
  sent : s.sent = layout r ps
  offset : s.fragmentOffset = ps.flatten.length
  id : s.fragmentId = ps.length % 2 ^ 32
  size : s.fragmentSize = s.iov.flatten.length

/-- The cut that the variables of the sender stand for. -/
def Sending.cut (s : Sending) (ps : List (List UInt8)) : Cut :=
  ⟨ps.length, s.iov.flatten.length, s.iov.length + 1⟩

variable {r : Request} {max writevMax : Nat}

variable {ps qs : List (List UInt8)} {s : Sending}

/-- A fragment with these entries is the next piece. -/
theorem Sound.flush (h : Sound r s ps) (iov : List (List UInt8)) {size : Nat}
    (hsize : size = iov.flatten.length) :
    Sound r (({ s with iov := iov } : Sending).flush r size) (ps ++ [iov.flatten]) where
  sent := by
    rw [layout_concat, Sending.flush, h.sent, h.offset, h.id, hsize]
  offset := by
    rw [Sending.flush, hsize, h.offset]
    simp
  id := by
    rw [Sending.flush, h.id, length_append, length_singleton, Nat.mod_add_mod]
  size := rfl

theorem sendFull_spec (hmax : 0 < max) (fuel : Nat) (s : Sending) (b : List UInt8)
    (ps pre : List (List UInt8)) (hiov : s.iov = pre ++ [b]) (hpre : pre.flatten.length < max)
    (hfuel : b.length ≤ fuel) (hs : Sound r s ps) :
    ∃ qs, Sound r (Sending.sendFull r max fuel s b) (ps ++ qs) ∧
      qs.flatten ++ (Sending.sendFull r max fuel s b).iov.flatten = s.iov.flatten ∧
      (∀ q ∈ qs, q.length = max) ∧
      (Sending.sendFull r max fuel s b).iov.flatten.length ≤ max ∧
      (qs = [] ∧ (Sending.sendFull r max fuel s b).iov = s.iov ∨
        qs ≠ [] ∧ (Sending.sendFull r max fuel s b).iov.length = 1 ∧
          0 < (Sending.sendFull r max fuel s b).iov.flatten.length) := by
  induction fuel generalizing s b ps pre with
  | zero =>
    refine ⟨[], by simpa [sendFull] using hs, rfl, nofun, ?_, .inl ⟨rfl, rfl⟩⟩
    have hlen : s.iov.flatten.length = pre.flatten.length + b.length := by
      rw [hiov, flatten_append, length_append]
      simp
    rw [sendFull]
    omega
  | succ fuel ih =>
    have hsize := hs.size
    have hlen : s.iov.flatten.length = pre.flatten.length + b.length := by
      rw [hiov, flatten_append, length_append]
      simp
    rw [sendFull]
    by_cases hfull : s.fragmentSize > max
    · rw [if_pos hfull]
      dsimp only
      generalize hk : max - (s.fragmentSize - b.length) = k
      have hcut : ({ s with iov := s.iov.dropLast ++ [b.take k] } : Sending).iov.flatten =
          pre.flatten ++ b.take k := by
        rw [hiov]
        simp
      have hcutlen : (pre.flatten ++ b.take k).length = max := by
        rw [length_append, length_take]
        omega
      have hs' := hs.flush (s.iov.dropLast ++ [b.take k]) (by rw [hcut, hcutlen])
      rw [hcut] at hs'
      generalize ({ s with iov := s.iov.dropLast ++ [b.take k] } : Sending).flush r max = s₁ at hs'
      have hs₂ : Sound r { s₁ with iov := [b.drop k], fragmentSize := b.length - k }
          (ps ++ [pre.flatten ++ b.take k]) := by
        refine ⟨hs'.sent, hs'.offset, hs'.id, ?_⟩
        simp
      obtain ⟨qs, hsound, hflat, hfulls, hle, hlast⟩ :=
        ih { s₁ with iov := [b.drop k], fragmentSize := b.length - k } (b.drop k)
          (ps ++ [pre.flatten ++ b.take k]) [] rfl hmax (by rw [length_drop]; omega) hs₂
      refine ⟨(pre.flatten ++ b.take k) :: qs, ?_, ?_, ?_, hle, .inr ⟨cons_ne_nil _ _, ?_⟩⟩
      · rw [append_assoc, singleton_append] at hsound
        exact hsound
      · rw [flatten_cons, append_assoc, hflat, hiov]
        simp
      · intro q hq
        rcases mem_cons.mp hq with rfl | hq
        · exact hcutlen
        · exact hfulls q hq
      · rcases hlast with ⟨-, hiov'⟩ | ⟨-, hone, hpos⟩
        · rw [hiov']
          refine ⟨rfl, ?_⟩
          rw [flatten_singleton, length_drop]
          omega
        · exact ⟨hone, hpos⟩
    · rw [if_neg hfull]
      refine ⟨[], by simpa using hs, rfl, nofun, by omega, .inl ⟨rfl, rfl⟩⟩

/-- The pieces that a block completes, and the entries behind it: the block is kept, it
completes a fragment, or it is split. -/
inductive Blocked (max : Nat) (iov : List (List UInt8)) (b : List UInt8) :
    List (List UInt8) → List (List UInt8) → Prop
  | kept (h : (iov ++ [b]).flatten.length < max) : Blocked max iov b [] (iov ++ [b])
  | flushed (h : (iov ++ [b]).flatten.length ≤ max) : Blocked max iov b [(iov ++ [b]).flatten] []
  | split {qs iov' : List (List UInt8)} (long : max < (iov ++ [b]).flatten.length)
      (flat : qs.flatten ++ iov'.flatten = (iov ++ [b]).flatten)
      (pieces : ∀ q ∈ qs, 0 < q.length ∧ q.length ≤ max) (full : ∃ q ∈ qs, q.length = max)
      (rest : iov' = [] ∨ 0 < iov'.flatten.length) (le : iov'.flatten.length ≤ max) :
      Blocked max iov b qs iov'

/-- The end of a round: the fragment is full, or the array is. -/
def Sending.close (r : Request) (max writevMax : Nat) (s : Sending) : Sending :=
  let s := if s.fragmentSize = max then s.flush r max else s
  if s.iov.length + 1 = writevMax then s.flush r s.fragmentSize else s

theorem close_spec (max : Nat) (hlimit : 2 ≤ writevMax) (hs : Sound r s ps) :
    if s.iov.flatten.length = max ∨ s.iov.length + 1 = writevMax then
      Sound r (s.close r max writevMax) (ps ++ [s.iov.flatten]) ∧
        (s.close r max writevMax).iov = []
    else s.close r max writevMax = s := by
  have hsize := hs.size
  unfold close
  by_cases hmax : s.fragmentSize = max
  · rw [if_pos (.inl (hsize ▸ hmax))]
    have hno : ¬(s.flush r max).iov.length + 1 = writevMax := by
      simp only [flush, length_nil]
      omega
    rw [if_pos hmax, if_neg hno]
    exact ⟨hs.flush s.iov (hmax.symm.trans hsize), rfl⟩
  · rw [if_neg hmax]
    by_cases hslots : s.iov.length + 1 = writevMax
    · rw [if_pos (.inr hslots), if_pos hslots]
      exact ⟨hs.flush s.iov hsize, rfl⟩
    · rw [if_neg (by rw [← hsize]; simp [hmax, hslots]), if_neg hslots]

theorem flatten_length_const {n : Nat} (h : ∀ q ∈ qs, q.length = n) :
    qs.flatten.length = n * qs.length := by
  induction qs with
  | nil => simp
  | cons q qs ih =>
    rw [flatten_cons, length_append, h q mem_cons_self,
      ih fun q hq => h q (mem_cons_of_mem _ hq), length_cons]
    ring

open Cut

/-- **Block.** What one block does to the pieces, and to the cut. -/
theorem sendBlock_spec (hmax : 0 < max) (hlimit : 2 ≤ writevMax) (hs : Sound r s ps)
    (hsize : s.iov.flatten.length < max) (b : List UInt8) :
    ∃ qs, Sound r (s.sendBlock r max writevMax b) (ps ++ qs) ∧
      Blocked max s.iov b qs (s.sendBlock r max writevMax b).iov ∧
      (s.sendBlock r max writevMax b).cut (ps ++ qs) =
        (s.cut ps).block max writevMax b.length := by
  have hlen : (s.iov ++ [b]).flatten.length = s.iov.flatten.length + b.length := by
    rw [flatten_append, length_append, flatten_singleton]
  have hs₀ : Sound r
      { s with
        iov := s.iov ++ [b]
        fragmentSize := s.fragmentSize + b.length } ps :=
    ⟨hs.sent, hs.offset, hs.id, by rw [hs.size]; exact hlen.symm⟩
  obtain ⟨qs, hsound, hflat, hfulls, hle, hcases⟩ :=
    sendFull_spec (r := r) hmax b.length _ b ps s.iov rfl hsize le_rfl hs₀
  have hdef : s.sendBlock r max writevMax b =
      (sendFull r max b.length
        { s with
          iov := s.iov ++ [b]
          fragmentSize := s.fragmentSize + b.length } b).close r max writevMax := rfl
  rw [hdef]
  generalize sendFull r max b.length
    { s with
      iov := s.iov ++ [b]
      fragmentSize := s.fragmentSize + b.length } b = s₁ at hsound hflat hle hcases
  have hclose := close_spec max hlimit hsound
  dsimp only at hflat hcases
  rcases hcases with ⟨rfl, hiov⟩ | ⟨hne, hone, hpos⟩
  · have ht : ¬s.iov.flatten.length + b.length > max := by
      rw [hiov, hlen] at hle
      omega
    have hlen₁ : s₁.iov.flatten.length = s.iov.flatten.length + b.length := by
      rw [hiov, hlen]
    have hslots : s₁.iov.length + 1 = s.iov.length + 2 := by
      rw [hiov]
      simp
    have hblock : (s.cut ps).block max writevMax b.length =
        if s₁.iov.flatten.length = max ∨ s₁.iov.length + 1 = writevMax then
          ⟨ps.length + 1, 0, 1⟩
        else ⟨ps.length, s₁.iov.flatten.length, s₁.iov.length + 1⟩ := by
      rw [block_short ht, hlen₁, hslots]
      rfl
    rw [hblock]
    rw [append_nil] at hclose
    split at hclose
    next h =>
      refine ⟨[s₁.iov.flatten], hclose.1, ?_, ?_⟩
      · rw [hclose.2, hiov]
        exact .flushed (hiov ▸ hle)
      · rw [if_pos h, cut, hclose.2, length_append]
        rfl
    next h =>
      refine ⟨[], ?_, ?_, ?_⟩
      · rw [hclose]
        exact hsound
      · rw [hclose, hiov]
        refine .kept ?_
        omega
      · rw [if_neg h, hclose, append_nil]
        rfl
  · have hlong : (s.cut ps).size + b.length = max * qs.length + s₁.iov.flatten.length := by
      have htotal := congrArg length hflat
      rw [length_append, flatten_length_const hfulls, hlen] at htotal
      exact htotal.symm
    have hk : 0 < qs.length := length_pos_iff.mpr hne
    rw [block_long hlong hk hpos hle]
    have hmore : max < (s.iov ++ [b]).flatten.length := by
      have hmul := Nat.le_mul_of_pos_right max hk
      simp only [cut] at hlong
      omega
    have hpieces : ∀ q ∈ qs, 0 < q.length ∧ q.length ≤ max := fun q hq => by
      rw [hfulls q hq]
      exact ⟨hmax, le_rfl⟩
    obtain ⟨q, hq⟩ := exists_mem_of_ne_nil qs hne
    have hslots : s₁.iov.length + 1 = 2 := by omega
    rw [hslots] at hclose
    split at hclose
    next h =>
      refine ⟨qs ++ [s₁.iov.flatten], ?_, ?_, ?_⟩
      · rw [← append_assoc]
        exact hclose.1
      · rw [hclose.2]
        refine .split hmore ?_ ?_ ⟨q, mem_append_left _ hq, hfulls q hq⟩ (.inl rfl) (by simp)
        · rw [← hflat]
          simp
        · intro q' hq'
          rcases mem_append.mp hq' with hq' | hq'
          · exact hpieces q' hq'
          · rw [mem_singleton.mp hq']
            exact ⟨hpos, hle⟩
      · rw [if_pos h, cut, hclose.2, length_append, length_append,
          ← Nat.add_assoc]
        rfl
    next h =>
      refine ⟨qs, ?_, ?_, ?_⟩
      · rw [hclose]
        exact hsound
      · rw [hclose]
        exact .split hmore hflat hpieces ⟨q, hq, hfulls q hq⟩ (.inr hpos) hle
      · rw [if_neg h, hclose, cut, length_append, hslots]
        rfl

/-! ## Counting agrees with sending -/

/-- The counting pass is where the sending pass is. -/
structure Agrees (s : Sending) (n : Counting) : Prop where
  count : n.fragmentCount = s.fragmentId
  size : n.fragmentSize = s.fragmentSize
  slots : n.iovcnt = s.iov.length + 1

theorem Agrees.full {n : Counting} (r : Request) (max fuel : Nat) (b : List UInt8) (h : Agrees s n) :
    Agrees (Sending.sendFull r max fuel s b) (countFull max fuel n b.length) ∧
      (countFull max fuel n b.length).totalLength = n.totalLength := by
  induction fuel generalizing s n b with
  | zero => exact ⟨h, rfl⟩
  | succ fuel ih =>
    rw [sendFull, countFull, h.size]
    split
    · dsimp only
      generalize hk : max - (s.fragmentSize - b.length) = k
      rw [← length_drop]
      refine ih (b.drop k) ⟨?_, ?_, rfl⟩
      · rw [h.count]
        rfl
      · rfl
    · exact ⟨h, rfl⟩

theorem Agrees.flush {n : Counting} (h : Agrees s n) (size : Nat) :
    Agrees (s.flush r size) n.flush where
  count := by rw [Counting.flush, Sending.flush, h.count]
  size := rfl
  slots := rfl

/-- The array is not more than full, so that `>=` in one pass is `==` in the other. -/
theorem Agrees.block (hmax : 0 < max) {n : Counting} (h : Agrees s n) (hs : Sound r s ps)
    (hsize : s.iov.flatten.length < max) (hlimit : 2 ≤ writevMax)
    (hslots : s.iov.length + 1 < writevMax) (b : List UInt8) :
    Agrees (s.sendBlock r max writevMax b) (countBlock max writevMax n b.length) ∧
      (countBlock max writevMax n b.length).totalLength =
        (n.totalLength + b.length) % 2 ^ 32 := by
  have hbegin : Agrees
      { s with
        iov := s.iov ++ [b]
        fragmentSize := s.fragmentSize + b.length }
      { n with
        totalLength := (n.totalLength + b.length) % 2 ^ 32
        fragmentSize := n.fragmentSize + b.length
        iovcnt := n.iovcnt + 1 } := by
    refine ⟨h.count, ?_, ?_⟩
    · rw [h.size]
    · rw [h.slots, length_append]
      rfl
  have hs₀ : Sound r
      { s with
        iov := s.iov ++ [b]
        fragmentSize := s.fragmentSize + b.length } ps := by
    refine ⟨hs.sent, hs.offset, hs.id, ?_⟩
    rw [hs.size, flatten_append, length_append, flatten_singleton]
  obtain ⟨qs, -, -, -, -, hcases⟩ :=
    sendFull_spec (r := r) hmax b.length _ b ps s.iov rfl hsize le_rfl hs₀
  obtain ⟨hfull, htotal⟩ := hbegin.full r max b.length b
  unfold sendBlock countBlock
  dsimp only at hfull htotal hcases ⊢
  generalize sendFull r max b.length
    { s with
      iov := s.iov ++ [b]
      fragmentSize := s.fragmentSize + b.length } b = s₁ at hfull hcases ⊢
  generalize countFull max b.length
    { n with
      totalLength := (n.totalLength + b.length) % 2 ^ 32
      fragmentSize := n.fragmentSize + b.length
      iovcnt := n.iovcnt + 1 } b.length = n₁ at hfull htotal ⊢
  have hbound : s₁.iov.length + 1 ≤ writevMax := by
    rcases hcases with ⟨-, hiov⟩ | ⟨-, hone, -⟩
    · rw [hiov, length_append, length_singleton]
      omega
    · omega
  rw [hfull.size]
  split
  next hexact =>
    have hafter := hfull.flush (r := r) max
    have hno : ¬n₁.flush.iovcnt ≥ writevMax := by
      simp only [Counting.flush]
      omega
    have hno' : ¬(s₁.flush r max).iov.length + 1 = writevMax := by
      simp only [Sending.flush, length_nil]
      omega
    rw [if_neg hno, if_neg hno']
    exact ⟨hafter, htotal⟩
  next hexact =>
    by_cases hlast : s₁.iov.length + 1 = writevMax
    · rw [if_pos hlast, if_pos (by rw [hfull.slots]; omega)]
      exact ⟨hfull.flush _, htotal⟩
    · rw [if_neg hlast, if_neg (by rw [hfull.slots]; omega)]
      exact ⟨hfull, htotal⟩

/-! ## The whole message -/

def EmptyEnd (s : Sending) (ps : List (List UInt8)) : Prop :=
  (s.iov ≠ [] ∧ s.iov.flatten = []) ∨ (s.iov = [] ∧ ps.getLast? = some [])

theorem EmptyEnd.block {s' : Sending} {b : List UInt8} (h : Blocked max s.iov b qs s'.iov)
    (hsize : s.iov.flatten.length < max) :
    EmptyEnd s' (ps ++ qs) ↔ b = [] ∧ (EmptyEnd s ps ∨ s.iov = []) := by
  have hempty : (s.iov ++ [b]).flatten = [] ↔ b = [] ∧ (EmptyEnd s ps ∨ s.iov = []) := by
    rw [flatten_append, append_eq_nil_iff, flatten_singleton, and_comm]
    refine and_congr_right fun _ => ?_
    constructor
    · intro hflat
      by_cases hiov : s.iov = []
      · exact .inr hiov
      · exact .inl (.inl ⟨hiov, hflat⟩)
    · rintro ((⟨-, hflat⟩ | ⟨hiov, -⟩) | hiov)
      · exact hflat
      · rw [hiov]
        rfl
      · rw [hiov]
        rfl
  generalize hiov' : s'.iov = iov' at h
  cases h with
  | kept =>
    rw [← hempty, EmptyEnd, hiov']
    simp
  | flushed =>
    rw [← hempty, EmptyEnd, hiov']
    simp
  | split long flat pieces full rest =>
    have hb : b ≠ [] := by
      rintro rfl
      rw [flatten_append, flatten_singleton, append_nil] at long
      omega
    refine ⟨fun hend => ?_, fun hb' => absurd hb'.1 hb⟩
    exfalso
    rcases hend with ⟨hne, hflat⟩ | ⟨hnil, hlast⟩
    · rw [hiov'] at hne hflat
      have hpos := rest.resolve_left hne
      rw [hflat] at hpos
      exact absurd hpos (by simp)
    · obtain ⟨q, hq, -⟩ := full
      rw [getLast?_append_of_ne_nil _ (ne_nil_of_mem hq)] at hlast
      have hpos := (pieces [] (mem_of_getLast? hlast)).1
      exact absurd hpos (by simp)

theorem Blocked.bytes {iov iov' : List (List UInt8)} {b : List UInt8}
    (h : Blocked max iov b qs iov') : qs.flatten ++ iov'.flatten = iov.flatten ++ b := by
  have hflat : (iov ++ [b]).flatten = iov.flatten ++ b := by simp
  cases h with
  | kept => exact hflat
  | flushed =>
    rw [flatten_singleton, flatten_nil, append_nil]
    exact hflat
  | split long flat => exact flat.trans hflat

theorem Blocked.fits {iov iov' : List (List UInt8)} {b : List UInt8} {bound : Nat}
    (h : Blocked max iov b qs iov') :
    ((∀ q ∈ qs, q.length ≤ bound) ∧ iov'.flatten.length ≤ bound) ↔
      min (iov.flatten.length + b.length) max ≤ bound := by
  have hlen : (iov ++ [b]).flatten.length = iov.flatten.length + b.length := by
    rw [flatten_append, length_append, flatten_singleton]
  cases h with
  | kept hlt =>
    rw [hlen] at hlt ⊢
    rw [min_eq_left (by omega)]
    exact ⟨And.right, fun h => ⟨nofun, h⟩⟩
  | flushed hle =>
    rw [min_eq_left (by omega), ← hlen]
    simp
  | split long flat pieces full rest le =>
    rw [min_eq_right (by omega)]
    constructor
    · rintro ⟨hqs, -⟩
      obtain ⟨q, hq, hlong⟩ := full
      rw [← hlong]
      exact hqs q hq
    · intro hmax
      exact ⟨fun q hq => (pieces q hq).2.trans hmax, le.trans hmax⟩

/-- Behind some of the blocks. -/
structure Progress (r : Request) (max writevMax : Nat) (blocks : List (List UInt8)) (s : Sending)
    (ps : List (List UInt8)) : Prop where
  sound : Sound r s ps
  cut : s.cut ps = Cut.blocks max writevMax (blocks.map List.length)
  bytes : ps.flatten ++ s.iov.flatten = blocks.flatten
  size : s.iov.flatten.length < max
  slots : s.iov.length + 1 < writevMax
  trailing : EmptyEnd s ps ↔ Cut.Trailing max writevMax (blocks.map List.length)
  fits : ∀ bound, ((∀ p ∈ ps, p.length ≤ bound) ∧ s.iov.flatten.length ≤ bound) ↔
    Cut.Fits max writevMax bound (blocks.map List.length)

theorem Progress.block (hmax : 0 < max) (hlimit : 2 ≤ writevMax) {blocks : List (List UInt8)}
    (h : Progress r max writevMax blocks s ps) (b : List UInt8) :
    ∃ qs, Progress r max writevMax (blocks ++ [b]) (s.sendBlock r max writevMax b) (ps ++ qs) := by
  obtain ⟨qs, hsound, hblocked, hcut⟩ := sendBlock_spec hmax hlimit h.sound h.size b
  have hlengths : (blocks ++ [b]).map length = blocks.map length ++ [b.length] := by
    simp
  have hcut' : (s.sendBlock r max writevMax b).cut (ps ++ qs) =
      Cut.blocks max writevMax ((blocks ++ [b]).map length) := by
    rw [hcut, h.cut, hlengths, blocks_concat]
  have hlt := block_lt (c := s.cut ps) hmax hlimit h.slots b.length
  rw [← hcut] at hlt
  have hsize : (Cut.blocks max writevMax (blocks.map length)).size = s.iov.flatten.length := by
    rw [← h.cut]
    rfl
  refine ⟨qs, hsound, hcut', ?_, hlt.1, hlt.2, ?_, ?_⟩
  · rw [flatten_append, append_assoc, hblocked.bytes, ← append_assoc, h.bytes,
      flatten_append, flatten_singleton]
  · have hslots : s.iov = [] ↔ (Cut.blocks max writevMax (blocks.map length)).slots = 1 := by
      rw [← h.cut]
      simp [Sending.cut]
    rw [hlengths, trailing_concat, EmptyEnd.block hblocked h.size, h.trailing, hslots,
      length_eq_zero_iff]
  · intro bound
    rw [hlengths, fits_concat, ← h.fits, hsize]
    constructor
    · rintro ⟨hall, hrest⟩
      have hmin := hblocked.fits.mp ⟨fun q hq => hall q (mem_append_right _ hq), hrest⟩
      have hlt := h.size
      refine ⟨⟨fun p hp => hall p (mem_append_left _ hp), ?_⟩, hmin⟩
      omega
    · rintro ⟨⟨hps, hiov⟩, hmin⟩
      obtain ⟨hqs, hrest⟩ := hblocked.fits.mpr hmin
      refine ⟨fun p hp => ?_, hrest⟩
      rcases mem_append.mp hp with hp | hp
      · exact hps p hp
      · exact hqs p hp

theorem Progress.all (hmax : 0 < max) (hlimit : 2 ≤ writevMax) (blocks : List (List UInt8)) :
    ∃ ps, Progress r max writevMax blocks
      (blocks.foldl (Sending.sendBlock r max writevMax) ⟨[], 0, 0, 0, []⟩) ps := by
  induction blocks using reverseRecOn with
  | nil =>
    refine ⟨[], ⟨rfl, rfl, rfl, rfl⟩, rfl, rfl, hmax, hlimit, ?_, fun bound => ?_⟩
    · refine ⟨?_, fun h => absurd h not_trailing_nil⟩
      rintro (⟨hne, -⟩ | ⟨-, hlast⟩)
      · exact absurd rfl hne
      · cases hlast
    · refine ⟨fun _ front l rest hsplit => ?_, fun _ => ⟨nofun, Nat.zero_le _⟩⟩
      simp at hsplit
  | append_singleton blocks b ih =>
    obtain ⟨ps, hps⟩ := ih
    obtain ⟨qs, hqs⟩ := hps.block hmax hlimit b
    exact ⟨ps ++ qs, by rw [foldl_append]; exact hqs⟩

/-- The last bytes go out as well. -/
theorem Progress.finish {blocks : List (List UInt8)} (h : Progress r max writevMax blocks s ps) :
    ∃ qs, (s.finish r).sent = layout r qs ∧ qs.flatten = blocks.flatten ∧
      qs.length = Cut.fragments max writevMax (blocks.map length) ∧
      (qs.getLast? = some [] ↔ Cut.Trailing max writevMax (blocks.map length)) ∧
      ∀ bound, (∀ q ∈ qs, q.length ≤ bound) ↔
        Cut.Fits max writevMax bound (blocks.map length) := by
  have hslots : (Cut.blocks max writevMax (blocks.map length)).slots = s.iov.length + 1 := by
    rw [← h.cut]
    rfl
  have hfull : (Cut.blocks max writevMax (blocks.map length)).full = ps.length := by
    rw [← h.cut]
    rfl
  rw [Sending.finish, fragments, hslots, hfull]
  by_cases hiov : s.iov = []
  · rw [if_neg (by simp [hiov]), if_pos (by simp [hiov])]
    refine ⟨ps, h.sound.sent, ?_, rfl, ?_, fun bound => ?_⟩
    · rw [← h.bytes, hiov, flatten_nil, append_nil]
    · rw [← h.trailing, EmptyEnd]
      simp [hiov]
    · rw [← h.fits, hiov]
      simp
  · have hone : s.iov.length + 1 ≠ 1 := by simpa using hiov
    rw [if_pos hone, if_neg hone]
    have hflush := h.sound.flush s.iov h.sound.size
    refine ⟨ps ++ [s.iov.flatten], hflush.sent, ?_, by simp, ?_, fun bound => ?_⟩
    · rw [flatten_append, flatten_singleton, h.bytes]
    · rw [← h.trailing, EmptyEnd]
      simp [hiov]
    · rw [← h.fits]
      simp [or_imp, forall_and]

theorem compute_agrees (hmax : 0 < max) (hlimit : 2 ≤ writevMax) (blocks : List (List UInt8)) :
    Agrees (blocks.foldl (Sending.sendBlock r max writevMax) ⟨[], 0, 0, 0, []⟩)
        ((blocks.map length).foldl (countBlock max writevMax) ⟨0, 0, 0, 1⟩) ∧
      ((blocks.map length).foldl (countBlock max writevMax) ⟨0, 0, 0, 1⟩).totalLength =
        blocks.flatten.length % 2 ^ 32 := by
  induction blocks using reverseRecOn with
  | nil => exact ⟨⟨rfl, rfl, rfl⟩, rfl⟩
  | append_singleton blocks b ih =>
    obtain ⟨ps, hps⟩ := Progress.all (r := r) hmax hlimit blocks
    obtain ⟨hagrees, htotal⟩ := ih
    rw [map_append, map_singleton, foldl_append, foldl_append]
    obtain ⟨hblock, hlength⟩ :=
      hagrees.block hmax hps.sound hps.size hlimit hps.slots b
    refine ⟨hblock, ?_⟩
    rw [foldl_cons, foldl_nil, hlength, htotal, flatten_append, length_append,
      flatten_singleton, Nat.mod_add_mod]

/-- **Sender.** The fragments are the message in pieces, and their number is announced. -/
theorem sendMessage_layout (c : Config) (hmax : 0 < c.maxFragmentPayload)
    (hlimit : 2 ≤ c.writevMax) (requestId : Nat) (blocks : List (List UInt8)) :
    ∃ ps, sendMessage c requestId blocks =
        layout ⟨requestId, blocks.flatten.length % 2 ^ 32, ps.length % 2 ^ 32⟩ ps ∧
      ps.flatten = blocks.flatten ∧
      ps.length = Cut.fragments c.maxFragmentPayload c.writevMax (blocks.map length) ∧
      (ps.getLast? = some [] ↔
        Cut.Trailing c.maxFragmentPayload c.writevMax (blocks.map length)) ∧
      ∀ bound, (∀ p ∈ ps, p.length ≤ bound) ↔
        Cut.Fits c.maxFragmentPayload c.writevMax bound (blocks.map length) := by
  generalize hr : (⟨requestId,
    (computeFragmentCount c.maxFragmentPayload c.writevMax (blocks.map length)).2,
    (computeFragmentCount c.maxFragmentPayload c.writevMax (blocks.map length)).1⟩ :
      Request) = r
  obtain ⟨ps, hps⟩ := Progress.all (r := r) hmax hlimit blocks
  obtain ⟨hagrees, htotal⟩ := compute_agrees (r := r) hmax hlimit blocks
  obtain ⟨qs, hsent, hbytes, hlength, htrailing, hfits⟩ := hps.finish
  refine ⟨qs, ?_, hbytes, hlength, htrailing, hfits⟩
  have hcount : (computeFragmentCount c.maxFragmentPayload c.writevMax
      (blocks.map length)).1 = qs.length % 2 ^ 32 := by
    have hslots : (Cut.blocks c.maxFragmentPayload c.writevMax (blocks.map length)).slots =
        (blocks.foldl (sendBlock r c.maxFragmentPayload c.writevMax)
          ⟨[], 0, 0, 0, []⟩).iov.length + 1 := by
      rw [← hps.cut]
      rfl
    have hfull : (Cut.blocks c.maxFragmentPayload c.writevMax (blocks.map length)).full =
        ps.length := by
      rw [← hps.cut]
      rfl
    rw [hlength, fragments, computeFragmentCount]
    rw [hagrees.slots, hagrees.count, hps.sound.id, hslots, hfull]
    by_cases h : (blocks.foldl (sendBlock r c.maxFragmentPayload c.writevMax)
        ⟨[], 0, 0, 0, []⟩).iov.length + 1 = 1
    · rw [if_pos h, if_neg (not_not.mpr h)]
    · rw [if_neg h, if_pos h, Nat.mod_add_mod]
  have hsize : (computeFragmentCount c.maxFragmentPayload c.writevMax
      (blocks.map length)).2 = blocks.flatten.length % 2 ^ 32 := by
    exact htotal
  rw [hcount, hsize] at hr
  rw [hr, ← hsent, sendMessage, hcount, hsize, hr]

end Atcd.Event
