import Atcd.Core.Run
import Atcd.Message.Sharing
/-!
# Sharing over runs

Results:
* `exact_of_keeps`: the reference count of each data block is the number of message blocks
  that refer to it, and it is freed with the last of them; duplicates share, clones do not;
  and a duplicate or clone that fails leaves the memory as it was. This holds as long as no
  `clone` fails behind its first data block.
* `clone_leaks`: a `clone` that fails at its second message block.
-/
namespace Atcd.Message.Sharing

open Atcd.Core List Option Nat

def refsTo (d : Nat) (l : List MessageBlock) : Nat := l.countP (·.dataBlock = some d)

variable {d : Nat} {l l' rest : List MessageBlock} {mb : MessageBlock} {db : DataBlock} {h h' : Heap}
  {allocs : Allocs}

@[simp] theorem refsTo_cons : refsTo d (mb :: l) = refsTo d l + if mb.dataBlock = some d then 1 else 0 := by
  simp [refsTo, countP_cons]

theorem refsTo_perm (hp : l.Perm l') : refsTo d l = refsTo d l' := hp.countP_eq _

theorem refsTo_pos : 0 < refsTo d l ↔ ∃ mb ∈ l, mb.dataBlock = some d := by
  simp [refsTo, countP_pos_iff]

namespace DataBlock

/-- What every data block made by size is. -/
structure Sound (db : DataBlock) : Prop where
  flags : db.flags &&& dontDelete = 0
  size : db.curSize = db.maxSize
  bytes : (db.base.getD []).length = db.maxSize

def Alike (db db' : DataBlock) : Prop := db' = { db with referenceCount := db'.referenceCount }

theorem alike_refl (db : DataBlock) : db.Alike db := rfl

theorem Alike.trans {a b c : DataBlock} (hab : a.Alike b) (hbc : b.Alike c) : a.Alike c := by
  rw [Alike, hbc, hab]

end DataBlock

namespace Heap

/-! ## The memory and the message blocks -/

/-- The message blocks of the list are what is allocated, and share the data blocks. -/
structure Owns (h : Heap) (l : List MessageBlock) : Prop where
  refs : ∀ d db, h.dataBlocks d = some db → db.referenceCount = refsTo d l ∧ 0 < refsTo d l
  held : ∀ mb ∈ l, ∀ d, mb.dataBlock = some d → (h.dataBlocks d).isSome
  ids : (l.map (·.id)).Nodup
  blocks : ∀ mb ∈ l, h.memory (.messageBlock mb.id) = some mb.messageBlockAllocator
  noMore : ∀ m, h.memory (.messageBlock m) ≠ none → ∃ mb ∈ l, mb.id = m
  objects : ∀ d, h.memory (.dataBlock d) = (h.dataBlocks d).map fun db => some db.dataBlockAllocator
  bytes : ∀ d, h.memory (.bytes d) =
    (h.dataBlocks d).bind fun db => db.base.map fun _ => some db.allocatorStrategy
  sound : ∀ d db, h.dataBlocks d = some db → db.Sound
  unused : ∀ i, h.next ≤ i → h.dataBlocks i = none ∧ h.memory (.messageBlock i) = none

/-- The data blocks that were there and still are have at most another reference count. -/
structure Kept (h h' : Heap) : Prop where
  next : h.next ≤ h'.next
  junk : h'.junk = h.junk
  alike : ∀ d < h.next, ∀ db', h'.dataBlocks d = some db' → ∃ db, h.dataBlocks d = some db ∧ db.Alike db'

theorem Kept.refl (h : Heap) : Kept h h := ⟨Nat.le_refl _, rfl, fun _ _ db hd => ⟨db, hd, db.alike_refl⟩⟩

theorem Kept.trans {h₁ h₂ h₃ : Heap} (h₁₂ : Kept h₁ h₂) (h₂₃ : Kept h₂ h₃) : Kept h₁ h₃ where
  next := Nat.le_trans h₁₂.next h₂₃.next
  junk := h₂₃.junk.trans h₁₂.junk
  alike d hd db hdb := by
    obtain ⟨db₂, hdb₂, ha₂⟩ := h₂₃.alike d (Nat.lt_of_lt_of_le hd h₁₂.next) db hdb
    obtain ⟨db₁, hdb₁, ha₁⟩ := h₁₂.alike d hd db₂ hdb₂
    exact ⟨db₁, hdb₁, ha₁.trans ha₂⟩

theorem Owns.perm (ho : Owns h l) (hp : l.Perm l') : Owns h l' where
  refs d db hd := by
    rw [← refsTo_perm hp]
    exact ho.refs d db hd
  held mb hm := ho.held mb (hp.mem_iff.mpr hm)
  ids := (hp.map _).nodup_iff.mp ho.ids
  blocks mb hm := ho.blocks mb (hp.mem_iff.mpr hm)
  noMore m hm := by
    obtain ⟨mb, hmb, hid⟩ := ho.noMore m hm
    exact ⟨mb, hp.mem_iff.mp hmb, hid⟩
  objects := ho.objects
  bytes := ho.bytes
  sound := ho.sound
  unused := ho.unused

theorem Owns.lt_next (ho : Owns h l) (hd : h.dataBlocks d = some db) : d < h.next := by
  by_contra hge
  have hnone := (ho.unused d (not_lt.mp hge)).1
  rw [hnone] at hd
  cases hd

/-- A data block exists as long as a message block refers to it. -/
theorem Owns.isSome_iff (ho : Owns h l) : (h.dataBlocks d).isSome ↔ 0 < refsTo d l := by
  constructor
  · intro hd
    obtain ⟨db, hdb⟩ := isSome_iff_exists.mp hd
    exact (ho.refs d db hdb).2
  · intro hpos
    obtain ⟨mb, hm, hmb⟩ := refsTo_pos.mp hpos
    exact ho.held mb hm d hmb

/-- The memory is determined by the message blocks, and by what was in it. -/
theorem Owns.unchanged (ho : Owns h l) (ho' : Owns h' l) (hk : Kept h h') :
    h'.memory = h.memory ∧ h'.dataBlocks = h.dataBlocks := by
  have hdata : h'.dataBlocks = h.dataBlocks := by
    funext d
    cases hd : h.dataBlocks d with
    | none =>
      have hzero : ¬ (h'.dataBlocks d).isSome := by
        rw [ho'.isSome_iff, ← ho.isSome_iff, hd]
        simp
      simpa using hzero
    | some db =>
      have hsome : (h'.dataBlocks d).isSome := by
        rw [ho'.isSome_iff, ← ho.isSome_iff, hd]
        rfl
      obtain ⟨db', hdb'⟩ := isSome_iff_exists.mp hsome
      obtain ⟨db₀, hdb₀, halike⟩ := hk.alike d (ho.lt_next hd) db' hdb'
      have heq : db₀ = db := some.inj (hdb₀.symm.trans hd)
      have hrefs : db'.referenceCount = db.referenceCount :=
        (ho'.refs d db' hdb').1.trans (ho.refs d db hd).1.symm
      rw [hdb', halike, hrefs, heq]
  refine ⟨funext fun c => ?_, hdata⟩
  cases c with
  | dataBlock d => rw [ho'.objects, ho.objects, hdata]
  | bytes d => rw [ho'.bytes, ho.bytes, hdata]
  | messageBlock m =>
    by_cases hm : ∃ mb ∈ l, mb.id = m
    · obtain ⟨mb, hmem, rfl⟩ := hm
      rw [ho'.blocks mb hmem, ho.blocks mb hmem]
    · have hnone : ∀ {k : Heap}, Owns k l → k.memory (.messageBlock m) = none := fun hk => by
        by_contra hne
        exact hm (hk.noMore m hne)
      rw [hnone ho', hnone ho]

/-! ## Releasing -/

theorem free_eq {c : Cell} {a : Option Nat} (hc : h.memory c = some a) : h.free c a = some (h.setMemory c none) :=
  if_pos hc

/-- A lock that the caller holds is passed on, and not acquired again. -/
theorem releaseNoDelete_eq (lock : Option Nat) (hd : h.dataBlocks d = some db) :
    h.releaseNoDelete lock lock d = some
      (h.setDataBlock d (some { db with referenceCount := db.referenceCount - 1 }),
        if db.referenceCount - 1 = 0 then none else some d) := by
  have hfree : ¬((if lock.isSome then if lock = db.lockingStrategy then none else db.lockingStrategy
      else db.lockingStrategy).isSome ∧ (if lock.isSome then if lock = db.lockingStrategy then none
        else db.lockingStrategy else db.lockingStrategy) = lock) := by
    rintro ⟨hsome, heq⟩
    cases lock with
    | none =>
      rw [heq] at hsome
      cases hsome
    | some l =>
      simp only [isSome_some, if_true] at hsome heq
      split at heq
      · cases heq
      · next hne => exact hne heq.symm
  simp only [releaseNoDelete, hd, bind_eq_bind, bind_some, if_neg hfree]

/-- The bytes go with the object. -/
theorem destroyDataBlock_some (hd : h.dataBlocks d = some db)
    (ho : h.memory (.dataBlock d) = some (some db.dataBlockAllocator))
    (hb : h.memory (.bytes d) = db.base.map fun _ => some db.allocatorStrategy) (hf : db.flags &&& dontDelete = 0) :
    ∃ h', h.destroyDataBlock d = some h' ∧ h'.next = h.next ∧ h'.junk = h.junk ∧
      (∀ e, h'.dataBlocks e = if e = d then none else h.dataBlocks e) ∧
      ∀ c, h'.memory c = if c = .dataBlock d ∨ c = .bytes d then none else h.memory c := by
  simp only [destroyDataBlock, hd, bind_eq_bind, bind_some, hf, true_and]
  cases hbase : db.base with
  | none =>
    rw [hbase] at hb
    simp only [isSome_none, Bool.false_eq_true, if_false, bind_some, free_eq ho]
    refine ⟨_, rfl, rfl, rfl, fun e => rfl, fun c => ?_⟩
    by_cases hc : c = .bytes d
    · subst hc
      simpa using hb
    · simp [hc]
  | some bytes =>
    rw [hbase] at hb
    have hb' : h.memory (.bytes d) = some (some db.allocatorStrategy) := hb
    have ho' : (h.setMemory (.bytes d) none).memory (.dataBlock d) = some (some db.dataBlockAllocator) := by
      simpa using ho
    simp only [isSome_some, if_true, free_eq hb', bind_some, free_eq ho']
    refine ⟨_, rfl, rfl, rfl, fun e => rfl, fun c => ?_⟩
    by_cases hc : c = .dataBlock d
    · simp [hc]
    · simp [hc]

/-- The message blocks but the first, when its memory is freed and the references are
counted again. -/
theorem Owns.tail (ho : Owns h (mb :: rest)) (hnext : h'.next = h.next)
    (hmem : ∀ m, h'.memory (.messageBlock m) = if m = mb.id then none else h.memory (.messageBlock m))
    (hrefs : ∀ d db, h'.dataBlocks d = some db → db.referenceCount = refsTo d rest ∧ 0 < refsTo d rest ∧
      ∃ db₀, h.dataBlocks d = some db₀ ∧ db₀.Alike db)
    (hheld : ∀ m ∈ rest, ∀ d, m.dataBlock = some d → (h'.dataBlocks d).isSome)
    (hobj : ∀ d, h'.memory (.dataBlock d) = (h'.dataBlocks d).map fun db => some db.dataBlockAllocator)
    (hbytes : ∀ d, h'.memory (.bytes d) =
      (h'.dataBlocks d).bind fun db => db.base.map fun _ => some db.allocatorStrategy) : Owns h' rest := by
  have hids := nodup_cons.mp ho.ids
  refine ⟨fun d db hd => ⟨(hrefs d db hd).1, (hrefs d db hd).2.1⟩, hheld, hids.2, fun m hm => ?_, fun m hm => ?_,
    hobj, hbytes, fun d db hd => ?_, fun i hi => ⟨?_, ?_⟩⟩
  · have hne : m.id ≠ mb.id := fun heq => hids.1 (mem_map.mpr ⟨m, hm, heq⟩)
    rw [hmem, if_neg hne]
    exact ho.blocks m (mem_cons_of_mem _ hm)
  · rw [hmem] at hm
    split at hm
    · exact absurd rfl hm
    · next hne =>
      obtain ⟨m', hm', hid⟩ := ho.noMore m hm
      rcases mem_cons.mp hm' with rfl | hm'
      · exact absurd hid.symm hne
      · exact ⟨m', hm', hid⟩
  · obtain ⟨db₀, hdb₀, halike⟩ := (hrefs d db hd).2.2
    have hsound := ho.sound d db₀ hdb₀
    rw [halike]
    exact ⟨hsound.flags, hsound.size, hsound.bytes⟩
  · by_contra hne
    obtain ⟨db, hdb⟩ := ne_none_iff_exists'.mp hne
    obtain ⟨db₀, hdb₀, -⟩ := (hrefs i db hdb).2.2
    rw [(ho.unused i (hnext ▸ hi)).1] at hdb₀
    cases hdb₀
  · rw [hmem, (ho.unused i (hnext ▸ hi)).2]
    exact ite_self _

/-- One message block of a chain: its data block goes with the last reference. -/
theorem releaseSelf_owns (lock : Option Nat) (ho : Owns h (mb :: rest)) : ∃ h₁ destroy h₂,
    h.releaseSelf lock lock mb = some (h₁, destroy) ∧ h₁.destroyIf mb destroy = some h₂ ∧
    Owns h₂ rest ∧ Kept h h₂ := by
  have hblock := ho.blocks mb mem_cons_self
  cases hmb : mb.dataBlock with
  | none =>
    refine ⟨h.setMemory (.messageBlock mb.id) none, false, _, ?_, rfl, ?_, ?_⟩
    · simp only [releaseSelf, hmb, free_eq hblock, bind_eq_bind, bind_some]
    · refine ho.tail rfl (fun m => by simp) (fun d db hd => ?_)
        (fun m hm => ho.held m (mem_cons_of_mem _ hm)) (fun d => ?_) (fun d => ?_)
      · have hrefs := ho.refs d db hd
        simp only [refsTo_cons, hmb, reduceCtorEq, if_false, Nat.add_zero] at hrefs
        exact ⟨hrefs.1, hrefs.2, db, hd, db.alike_refl⟩
      · simpa using ho.objects d
      · simpa using ho.bytes d
    · exact ⟨Nat.le_refl _, rfl, fun d _ db hd => ⟨db, hd, db.alike_refl⟩⟩
  | some d =>
    obtain ⟨db, hd⟩ := isSome_iff_exists.mp (ho.held mb mem_cons_self d hmb)
    have hrefs := ho.refs d db hd
    simp only [refsTo_cons, hmb, if_true] at hrefs
    have hother : ∀ e, e ≠ d → refsTo e (mb :: rest) = refsTo e rest := fun e he => by
      have hne : mb.dataBlock ≠ some e := fun heq => he (some.inj (heq.symm.trans hmb))
      rw [refsTo_cons, if_neg hne, Nat.add_zero]
    have hobj := ho.objects d
    have hbytes := ho.bytes d
    rw [hd] at hobj hbytes
    -- the heap between the two parts of the release
    obtain ⟨h₁, hh₁⟩ : ∃ h₁, h₁ = (h.setDataBlock d (some { db with
        referenceCount := db.referenceCount - 1 })).setMemory (.messageBlock mb.id) none := ⟨_, rfl⟩
    have hself : h.releaseSelf lock lock mb =
        some (h₁, (if db.referenceCount - 1 = 0 then none else some d : Option Nat).isNone) := by
      simp only [releaseSelf, hmb, releaseNoDelete_eq lock hd, bind_eq_bind, bind_some]
      rw [free_eq (by exact hblock), bind_some, hh₁]
    have hd₁ : h₁.dataBlocks d = some { db with referenceCount := db.referenceCount - 1 } := by
      simp [hh₁]
    by_cases hlast : refsTo d rest = 0
    · have hzero : db.referenceCount - 1 = 0 := by omega
      have hobj₁ : h₁.memory (.dataBlock d) = some (some db.dataBlockAllocator) := by
        simpa [hh₁] using hobj
      have hbytes₁ : h₁.memory (.bytes d) = db.base.map fun _ => some db.allocatorStrategy := by
        simpa [hh₁] using hbytes
      obtain ⟨h₂, hdestroy, hnext, hjunk, hdata, hmem⟩ :=
        destroyDataBlock_some hd₁ hobj₁ hbytes₁ (ho.sound d db hd).flags
      have hne : ∀ m ∈ rest, m.dataBlock ≠ some d := fun m hm heq => by
        have hpos := refsTo_pos.mpr ⟨m, hm, heq⟩
        omega
      have hsame : ∀ e, e ≠ d → h₂.dataBlocks e = h.dataBlocks e := fun e he => by
        simp [hdata, he, hh₁]
      have hgone : h₂.dataBlocks d = none := by simp [hdata]
      refine ⟨h₁, true, h₂, ?_, ?_, ?_, ?_⟩
      · rw [hself, if_pos hzero]
        rfl
      · simp only [destroyIf, if_true, hmb, bind_eq_bind, bind_some]
        exact hdestroy
      · refine ho.tail (hnext.trans (by rw [hh₁]; rfl)) (fun m => by simp [hmem, hh₁]) (fun e db' he => ?_)
          (fun m hm e he => ?_) (fun e => ?_) (fun e => ?_)
        · by_cases hed : e = d
          · subst hed
            rw [hgone] at he
            cases he
          · rw [hsame e hed] at he
            have hr := ho.refs e db' he
            rw [hother e hed] at hr
            exact ⟨hr.1, hr.2, db', he, db'.alike_refl⟩
        · have hed : e ≠ d := fun heq => hne m hm (heq ▸ he)
          rw [hsame e hed]
          exact ho.held m (mem_cons_of_mem _ hm) e he
        · by_cases hed : e = d
          · subst hed
            simp [hmem, hgone]
          · rw [hsame e hed, ← ho.objects e]
            simp [hmem, hed, hh₁]
        · by_cases hed : e = d
          · subst hed
            simp [hmem, hgone]
          · rw [hsame e hed, ← ho.bytes e]
            simp [hmem, hed, hh₁]
      · refine ⟨?_, ?_, fun e he db' hdb' => ?_⟩
        · rw [hnext, hh₁]
          exact Nat.le_refl _
        · rw [hjunk, hh₁]
          rfl
        · by_cases hed : e = d
          · subst hed
            rw [hgone] at hdb'
            cases hdb'
          · rw [hsame e hed] at hdb'
            exact ⟨db', hdb', db'.alike_refl⟩
    · have hpos : ¬ db.referenceCount - 1 = 0 := by omega
      have hsame : ∀ e, e ≠ d → h₁.dataBlocks e = h.dataBlocks e := fun e he => by simp [hh₁, he]
      refine ⟨h₁, false, h₁, ?_, rfl, ?_, ?_⟩
      · rw [hself, if_neg hpos]
        rfl
      · refine ho.tail (by rw [hh₁]; rfl) (fun m => by simp [hh₁]) (fun e db' he => ?_) (fun m hm e he => ?_)
          (fun e => ?_) (fun e => ?_)
        · by_cases hed : e = d
          · subst hed
            cases hd₁.symm.trans he
            exact ⟨by simp only; omega, by omega, db, hd, rfl⟩
          · rw [hsame e hed] at he
            have hr := ho.refs e db' he
            rw [hother e hed] at hr
            exact ⟨hr.1, hr.2, db', he, db'.alike_refl⟩
        · by_cases hed : e = d
          · rw [hed, hd₁]
            rfl
          · rw [hsame e hed]
            exact ho.held m (mem_cons_of_mem _ hm) e he
        · by_cases hed : e = d
          · subst hed
            simpa [hh₁] using hobj
          · rw [hsame e hed, ← ho.objects e]
            simp [hh₁]
        · by_cases hed : e = d
          · subst hed
            simpa [hh₁] using hbytes
          · rw [hsame e hed, ← ho.bytes e]
            simp [hh₁]
      · refine ⟨?_, ?_, fun e he db' hdb' => ?_⟩
        · rw [hh₁]
          exact Nat.le_refl _
        · rw [hh₁]
          rfl
        · by_cases hed : e = d
          · subst hed
            cases hd₁.symm.trans hdb'
            exact ⟨db, hd, rfl⟩
          · rw [hsame e hed] at hdb'
            exact ⟨db', hdb', db'.alike_refl⟩

theorem releaseCont_owns (lock : Option Nat) {cont : List MessageBlock} (ho : Owns h (cont ++ rest)) :
    ∃ h', releaseCont lock lock h cont = some h' ∧ Owns h' rest ∧ Kept h h' := by
  induction cont generalizing h with
  | nil => exact ⟨h, rfl, ho, Kept.refl h⟩
  | cons tmp cont ih =>
    obtain ⟨h₁, destroy, h₂, hself, hdestroy, ho₂, hk₂⟩ := releaseSelf_owns lock ho
    obtain ⟨h₃, hcont, ho₃, hk₃⟩ := ih ho₂
    refine ⟨h₃, ?_, ho₃, hk₂.trans hk₃⟩
    simp only [releaseCont, hself, bind_eq_bind, bind_some, hdestroy]
    exact hcont

variable {chain : List MessageBlock}

/-- The release of a chain is always defined, and frees what only the chain refers to. -/
theorem release_owns (ho : Owns h (chain ++ rest)) :
    ∃ h', h.release chain = some h' ∧ Owns h' rest ∧ Kept h h' := by
  cases chain with
  | nil => exact ⟨h, rfl, ho, Kept.refl h⟩
  | cons mb cont =>
    have hlock : ∃ lock, h.lockOf mb = some lock := by
      unfold lockOf
      cases hmb : mb.dataBlock with
      | none => exact ⟨none, rfl⟩
      | some d =>
        obtain ⟨db, hd⟩ := isSome_iff_exists.mp (ho.held mb mem_cons_self d hmb)
        exact ⟨db.lockingStrategy, by simp [hd]⟩
    obtain ⟨lock, hlock⟩ := hlock
    have hperm : (mb :: cont ++ rest).Perm (cont ++ mb :: rest) := perm_middle.symm
    obtain ⟨h₁, hcont, ho₁, hk₁⟩ := releaseCont_owns lock (ho.perm hperm)
    obtain ⟨h₂, destroy, h₃, hself, hdestroy, ho₃, hk₃⟩ := releaseSelf_owns lock ho₁
    refine ⟨h₃, ?_, ho₃, hk₁.trans hk₃⟩
    simp only [release, hlock, bind_eq_bind, bind_some, hcont, hself]
    exact hdestroy

/-! ## Allocating -/

/-- Nothing has changed, but some names may be used up. -/
structure Same (h h' : Heap) : Prop where
  next : h.next ≤ h'.next
  junk : h'.junk = h.junk
  memory : h'.memory = h.memory
  dataBlocks : h'.dataBlocks = h.dataBlocks

theorem Same.refl (h : Heap) : Same h h := ⟨Nat.le_refl _, rfl, rfl, rfl⟩

theorem Owns.of_same (ho : Owns h l) (hs : Same h h') : Owns h' l where
  refs := hs.dataBlocks ▸ ho.refs
  held := hs.dataBlocks ▸ ho.held
  ids := ho.ids
  blocks := hs.memory ▸ ho.blocks
  noMore := hs.memory ▸ ho.noMore
  objects := hs.memory ▸ hs.dataBlocks ▸ ho.objects
  bytes := hs.memory ▸ hs.dataBlocks ▸ ho.bytes
  sound := hs.dataBlocks ▸ ho.sound
  unused i hi := hs.memory ▸ hs.dataBlocks ▸ ho.unused i (Nat.le_trans hs.next hi)

/-- A data block more, that no message block refers to yet. -/
structure Created (h : Heap) (db : DataBlock) (h' : Heap) : Prop where
  next : h'.next = h.next + 1
  junk : h'.junk = h.junk
  data : ∀ e, h'.dataBlocks e = if e = h.next then some db else h.dataBlocks e
  memory : ∀ c, h'.memory c = if c = .dataBlock h.next then some (some db.dataBlockAllocator)
    else if c = .bytes h.next then db.base.map fun _ => some db.allocatorStrategy else h.memory c

theorem constructDataBlock_created (ho : Owns h l) (size : Nat) (type : Int) (a : Nat) (lock : Option Nat)
    (flags : MessageFlags) (b : Nat) (ok : Bool) : Created h (h.constructDataBlock size type a lock flags b ok).2
      (h.constructDataBlock size type a lock flags b ok).1 := by
  have hnone : h.memory (.bytes h.next) = none := by
    rw [ho.bytes, (ho.unused h.next (Nat.le_refl _)).1]
    rfl
  cases ok with
  | true =>
    refine ⟨rfl, rfl, fun e => rfl, fun c => ?_⟩
    by_cases hc : c = .dataBlock h.next
    · simp [constructDataBlock, hc]
    · simp [constructDataBlock, hc]
  | false =>
    refine ⟨rfl, rfl, fun e => rfl, fun c => ?_⟩
    by_cases hc : c = .bytes h.next
    · simp [constructDataBlock, hc, hnone]
    · simp [constructDataBlock, hc]

/-- A new data block that is destroyed at once leaves nothing. -/
theorem destroy_created (ho : Owns h l) (hc : Created h db h') (hf : db.flags &&& dontDelete = 0) :
    ∃ h'', h'.destroyDataBlock h.next = some h'' ∧ Same h h'' := by
  have hfresh := ho.unused h.next (Nat.le_refl _)
  have hd : h'.dataBlocks h.next = some db := by simp [hc.data]
  have hobj : h'.memory (.dataBlock h.next) = some (some db.dataBlockAllocator) := by simp [hc.memory]
  have hbytes : h'.memory (.bytes h.next) = db.base.map fun _ => some db.allocatorStrategy := by simp [hc.memory]
  obtain ⟨h'', hdestroy, hnext, hjunk, hdata, hmem⟩ := destroyDataBlock_some hd hobj hbytes hf
  refine ⟨h'', hdestroy, ?_, hjunk.trans hc.junk, funext fun c => ?_, funext fun e => ?_⟩
  · rw [hnext, hc.next]
    exact le_succ _
  · rw [hmem, hc.memory]
    by_cases ho' : c = .dataBlock h.next
    · simp [ho', ho.objects, hfresh.1]
    · by_cases hb' : c = .bytes h.next
      · simp [hb', ho.bytes, hfresh.1]
      · simp [ho', hb']
  · rw [hdata, hc.data]
    by_cases he : e = h.next
    · simp [he, hfresh.1]
    · simp [he]

/-- What the allocations for a data block leave; none if one fails that it needs. -/
def takeDataBlock (size : Nat) (allocs : Allocs) : Option Allocs :=
  match malloc allocs with
  | (false, _) => none
  | (true, allocs) =>
    let (ok, allocs) := malloc allocs
    if ok = false ∧ size ≠ 0 then none else some allocs

theorem createDataBlock_cases (ho : Owns h l) (size : Nat) (type : Int) (a : Nat) (lock : Option Nat)
    (flags : MessageFlags) (b : Nat) (allocs : Allocs) (hf : flags &&& dontDelete = 0) :
    ∃ h' r allocs', h.createDataBlock size type a lock flags b allocs = some (h', r, allocs') ∧
      ((r = none ∧ takeDataBlock size allocs = none ∧ Same h h') ∨
        (r = some h.next ∧ takeDataBlock size allocs = some allocs' ∧ ∃ base : Option (List UInt8),
          (base.getD []).length = size ∧ Created h ⟨type, size, size, flags, base, a, lock, 1, b⟩ h')) := by
  unfold createDataBlock takeDataBlock
  cases hm : malloc allocs with
  | mk ok allocs₁ =>
    cases ok with
    | false => exact ⟨h, none, allocs₁, rfl, .inl ⟨rfl, rfl, Same.refl h⟩⟩
    | true =>
      cases hm₂ : malloc allocs₁ with
      | mk ok₂ allocs₂ =>
        have hcreated := constructDataBlock_created ho size type a lock flags b ok₂
        have hflags : (h.constructDataBlock size type a lock flags b ok₂).2.flags &&& dontDelete = 0 := hf
        obtain ⟨h₂, hdestroy, hsame⟩ := destroy_created ho hcreated hflags
        simp only [hm₂, hdestroy, map_some]
        cases ok₂ with
        | true =>
          have hlt : ¬(h.constructDataBlock size type a lock flags b true).2.curSize < size := Nat.lt_irrefl _
          rw [if_neg hlt]
          refine ⟨_, _, _, rfl, .inr ⟨rfl, rfl, some ((range size).map h.junk), ?_, hcreated⟩⟩
          simp
        | false =>
          by_cases hsize : size = 0
          · have hlt : ¬(h.constructDataBlock size type a lock flags b false).2.curSize < size := by
              rw [hsize]
              exact Nat.lt_irrefl _
            rw [if_neg hlt]
            refine ⟨_, _, _, rfl, .inr ⟨rfl, by simp [hsize], none, hsize.symm, ?_⟩⟩
            rw [hsize] at hcreated ⊢
            exact hcreated
          · have hlt : (h.constructDataBlock size type a lock flags b false).2.curSize < size :=
              Nat.pos_of_ne_zero hsize
            rw [if_pos hlt]
            exact ⟨_, _, _, rfl, .inl ⟨rfl, by simp [hsize], hsame⟩⟩

/-! ## One message block more -/

theorem Owns.cons (ho : Owns h l) (hnew : h.next ≤ mb.id) (hlt : mb.id < h'.next)
    (hmem : ∀ m, h'.memory (.messageBlock m) =
      if m = mb.id then some mb.messageBlockAllocator else h.memory (.messageBlock m))
    (hrefs : ∀ d db, h'.dataBlocks d = some db → db.referenceCount = refsTo d (mb :: l) ∧ 0 < refsTo d (mb :: l) ∧
      db.Sound ∧ d < h'.next)
    (hheld : ∀ m ∈ mb :: l, ∀ d, m.dataBlock = some d → (h'.dataBlocks d).isSome)
    (hobj : ∀ d, h'.memory (.dataBlock d) = (h'.dataBlocks d).map fun db => some db.dataBlockAllocator)
    (hbytes : ∀ d, h'.memory (.bytes d) =
      (h'.dataBlocks d).bind fun db => db.base.map fun _ => some db.allocatorStrategy) : Owns h' (mb :: l) := by
  have hfree := fun i hi => (ho.unused i hi).2
  have hold : ∀ m ∈ l, m.id ≠ mb.id := fun m hm heq => by
    have hblock := ho.blocks m hm
    rw [hfree m.id (heq ▸ hnew)] at hblock
    cases hblock
  refine ⟨fun d db hd => ⟨(hrefs d db hd).1, (hrefs d db hd).2.1⟩, hheld, ?_, fun m hm => ?_, fun m hm => ?_,
    hobj, hbytes, fun d db hd => (hrefs d db hd).2.2.1, fun i hi => ⟨?_, ?_⟩⟩
  · refine nodup_cons.mpr ⟨fun hmap => ?_, ho.ids⟩
    obtain ⟨m, hm, hid⟩ := mem_map.mp hmap
    exact hold m hm hid
  · rcases mem_cons.mp hm with rfl | hm
    · simp [hmem]
    · rw [hmem, if_neg (hold m hm)]
      exact ho.blocks m hm
  · rw [hmem] at hm
    split at hm
    · next heq => exact ⟨mb, mem_cons_self, heq.symm⟩
    · obtain ⟨m', hm', hid⟩ := ho.noMore m hm
      exact ⟨m', mem_cons_of_mem _ hm', hid⟩
  · by_contra hne
    obtain ⟨db, hdb⟩ := ne_none_iff_exists'.mp hne
    have := (hrefs i db hdb).2.2.2
    omega
  · rw [hmem, if_neg (by omega)]
    exact hfree i (by omega)

variable (priority : Nat) (allocator : Option Nat) (rdPtr wrPtr : Nat)

theorem Owns.refsTo_next (ho : Owns h l) : refsTo h.next l = 0 := by
  by_contra hne
  obtain ⟨mb, hm, hd⟩ := refsTo_pos.mp (Nat.pos_of_ne_zero hne)
  obtain ⟨db, hdb⟩ := isSome_iff_exists.mp (ho.held mb hm h.next hd)
  exact Nat.lt_irrefl _ (ho.lt_next hdb)

/-- The message block whose data block could not be allocated. -/
theorem owns_new_none (ho : Owns h l) : Owns (h.newMessageBlock priority none allocator rdPtr wrPtr).1
    ((h.newMessageBlock priority none allocator rdPtr wrPtr).2 :: l) := by
  refine ho.cons (Nat.le_refl _) (lt_succ_self _) (fun m => ?_) (fun d db hd => ?_) (fun m hm d hd => ?_)
    ho.objects ho.bytes
  · by_cases hm : m = h.next
    · simp [newMessageBlock, hm]
    · simp [newMessageBlock, hm]
  · have hrefs := ho.refs d db hd
    exact ⟨hrefs.1, hrefs.2, ho.sound d db hd, lt_succ_of_lt (ho.lt_next hd)⟩
  · rcases mem_cons.mp hm with rfl | hm
    · cases hd
    · exact ho.held m hm d hd

theorem owns_new_created (ho : Owns h l) (hc : Created h db h') (hone : db.referenceCount = 1) (hs : db.Sound) :
    Owns (h'.newMessageBlock priority (some h.next) allocator rdPtr wrPtr).1
      ((h'.newMessageBlock priority (some h.next) allocator rdPtr wrPtr).2 :: l) := by
  refine ho.cons ?_ (lt_succ_self _) (fun m => ?_) (fun d db' hd => ?_) (fun m hm d hd => ?_) (fun d => ?_)
    (fun d => ?_)
  · change h.next ≤ h'.next
    rw [hc.next]
    exact le_succ _
  · by_cases hm : m = h'.next
    · simp [newMessageBlock, hm]
    · simp [newMessageBlock, hc.memory, hm]
  · change h'.dataBlocks d = some db' at hd
    change _ ∧ _ ∧ _ ∧ d < h'.next + 1
    rw [hc.data] at hd
    rw [hc.next]
    split at hd
    · next heq =>
      cases hd
      simp only [refsTo_cons, newMessageBlock, heq, if_true, ho.refsTo_next]
      exact ⟨hone, Nat.one_pos, hs, by omega⟩
    · next hne =>
      have hrefs := ho.refs d db' hd
      have hother : some h.next ≠ some d := fun heq => hne (some.inj heq).symm
      simp only [refsTo_cons, newMessageBlock, hother, if_false, Nat.add_zero]
      have := ho.lt_next hd
      exact ⟨hrefs.1, hrefs.2, ho.sound d db' hd, by omega⟩
  · change (h'.dataBlocks d).isSome
    rw [hc.data]
    rcases mem_cons.mp hm with rfl | hm
    · cases hd
      simp
    · split
      · rfl
      · exact ho.held m hm d hd
  · change (h'.newMessageBlock priority _ allocator rdPtr wrPtr).1.memory (.dataBlock d) = (h'.dataBlocks d).map _
    rw [hc.data]
    by_cases hd : d = h.next
    · simp [newMessageBlock, hc.memory, hd]
    · simp [newMessageBlock, hc.memory, hd, ho.objects d]
  · change (h'.newMessageBlock priority _ allocator rdPtr wrPtr).1.memory (.bytes d) = (h'.dataBlocks d).bind _
    rw [hc.data]
    by_cases hd : d = h.next
    · simp [newMessageBlock, hc.memory, hd]
    · simp [newMessageBlock, hc.memory, hd, ho.bytes d]

theorem owns_new_shared (ho : Owns h l) (hd : h.dataBlocks d = some db)
    (hs : h' = h.setDataBlock d (some { db with referenceCount := db.referenceCount + 1 })) :
    Owns (h'.newMessageBlock priority (some d) allocator rdPtr wrPtr).1
      ((h'.newMessageBlock priority (some d) allocator rdPtr wrPtr).2 :: l) := by
  subst hs
  refine ho.cons (Nat.le_refl _) (lt_succ_self _) (fun m => ?_) (fun e db' he => ?_) (fun m hm e he => ?_)
    (fun e => ?_) (fun e => ?_)
  · by_cases hm : m = h.next
    · simp [newMessageBlock, hm]
    · simp [newMessageBlock, hm]
  · change (if e = d then _ else h.dataBlocks e) = some db' at he
    split at he
    · next heq =>
      cases he
      have hrefs := ho.refs d db hd
      have hsound := ho.sound d db hd
      simp only [refsTo_cons, newMessageBlock, heq, if_true]
      exact ⟨by omega, succ_pos _, ⟨hsound.flags, hsound.size, hsound.bytes⟩, lt_succ_of_lt (ho.lt_next hd)⟩
    · next hne =>
      have hrefs := ho.refs e db' he
      have hother : some d ≠ some e := fun heq => hne (some.inj heq).symm
      simp only [refsTo_cons, newMessageBlock, hother, if_false, Nat.add_zero]
      exact ⟨hrefs.1, hrefs.2, ho.sound e db' he, lt_succ_of_lt (ho.lt_next he)⟩
  · change (if e = d then _ else h.dataBlocks e : Option DataBlock).isSome
    split
    · rfl
    · next hne =>
      rcases mem_cons.mp hm with rfl | hm
      · exact absurd (some.inj he).symm hne
      · exact ho.held m hm e he
  · have hobj := ho.objects e
    by_cases he : e = d
    · subst he
      simpa [newMessageBlock, hd] using hobj
    · simpa [newMessageBlock, he] using hobj
  · have hbytes := ho.bytes e
    by_cases he : e = d
    · subst he
      simpa [newMessageBlock, hd] using hbytes
    · simpa [newMessageBlock, he] using hbytes

theorem kept_setDataBlock (hd : h.dataBlocks d = some db) {db' : DataBlock} (ha : db.Alike db') :
    Kept h (h.setDataBlock d (some db')) where
  next := Nat.le_refl _
  junk := rfl
  alike e _ db₁ he := by
    change (if e = d then _ else h.dataBlocks e) = some db₁ at he
    split at he
    · next heq =>
      cases he
      exact ⟨db, heq ▸ hd, ha⟩
    · exact ⟨db₁, he, db₁.alike_refl⟩

theorem kept_new (dataBlock : Option Nat) (hk : Kept h h') :
    Kept h (h'.newMessageBlock priority dataBlock allocator rdPtr wrPtr).1 where
  next := le_succ_of_le hk.next
  junk := hk.junk
  alike := hk.alike

theorem perm_last (mb : MessageBlock) (top l : List MessageBlock) :
    (mb :: (top ++ l)).Perm (top ++ [mb] ++ l) := by
  rw [append_assoc]
  exact perm_middle.symm

/-! ## Duplicating -/

/-- The same offsets and data block. -/
def Shares (current dup : MessageBlock) : Prop :=
  dup.rdPtr = current.rdPtr ∧ dup.wrPtr = current.wrPtr ∧ dup.priority = current.priority ∧
    dup.dataBlock = current.dataBlock ∧ dup.messageBlockAllocator = current.messageBlockAllocator

theorem duplicateLoop_owns (top : List MessageBlock) {dup : List MessageBlock}
    (ho : Owns h (top ++ l)) (hsub : ∀ mb ∈ chain, mb ∈ l) (h' : Heap)
    (hdup : h.duplicateLoop top allocs chain = some (h', dup)) :
    Owns h' (dup ++ l) ∧ Kept h h' ∧ (dup = [] ∨ ∃ new, dup = top ++ new ∧ List.Forall₂ Shares chain new) := by
  induction chain generalizing h top allocs with
  | nil =>
    simp only [duplicateLoop, some.injEq, Prod.mk.injEq] at hdup
    obtain ⟨rfl, rfl⟩ := hdup
    exact ⟨ho, Kept.refl h, .inr ⟨[], by simp, .nil⟩⟩
  | cons current rest ih =>
    unfold duplicateLoop at hdup
    cases hm : malloc allocs with
    | mk ok allocs =>
      rw [hm] at hdup
      cases ok with
      | false =>
        obtain ⟨h₁, hrelease, ho₁, hk₁⟩ := release_owns ho
        simp only [hrelease, bind_eq_bind, bind_some, some.injEq, Prod.mk.injEq] at hdup
        obtain ⟨rfl, rfl⟩ := hdup
        exact ⟨ho₁, hk₁, .inl rfl⟩
      | true =>
        have hcurrent := hsub current mem_cons_self
        cases hd : current.dataBlock with
        | none => simp [hd] at hdup
        | some d =>
          obtain ⟨db, hdb⟩ := isSome_iff_exists.mp
            (ho.held current (mem_append_right _ hcurrent) d hd)
          simp only [hd, duplicateDataBlock, hdb, bind_eq_bind, bind_some] at hdup
          have ho₁ := owns_new_shared current.priority current.messageBlockAllocator current.rdPtr current.wrPtr
            ho hdb rfl
          have hk₁ : Kept h (h.setDataBlock d (some { db with referenceCount := db.referenceCount + 1 })) :=
            kept_setDataBlock hdb rfl
          obtain ⟨ho₂, hk₂, hnew⟩ := ih _ (ho₁.perm (perm_last _ top l))
            (fun mb hmb => hsub mb (mem_cons_of_mem _ hmb)) hdup
          refine ⟨ho₂, (kept_new _ _ _ _ (some d) hk₁).trans hk₂, ?_⟩
          rcases hnew with hnil | ⟨new, rfl, hall⟩
          · exact .inl hnil
          · exact .inr ⟨_, append_assoc top [_] new, .cons ⟨rfl, rfl, rfl, hd.symm, rfl⟩ hall⟩

theorem shares_mem {dup : List MessageBlock} (hall : List.Forall₂ Shares chain dup) (hm : mb ∈ dup) :
    ∃ current ∈ chain, mb.dataBlock = current.dataBlock := by
  induction hall with
  | nil => cases hm
  | cons hshare _ ih =>
    rcases mem_cons.mp hm with rfl | hm
    · exact ⟨_, mem_cons_self, hshare.2.2.2.1⟩
    · obtain ⟨current, hcur, heq⟩ := ih hm
      exact ⟨current, mem_cons_of_mem _ hcur, heq⟩

theorem duplicateLoop_isSome (top : List MessageBlock) (ho : Owns h (top ++ l))
    (hsub : ∀ mb ∈ chain, mb ∈ l) (hdata : ∀ mb ∈ chain, mb.dataBlock.isSome) :
    (h.duplicateLoop top allocs chain).isSome := by
  induction chain generalizing h top allocs with
  | nil => rfl
  | cons current rest ih =>
    unfold duplicateLoop
    cases hm : malloc allocs with
    | mk ok allocs =>
      cases ok with
      | false =>
        obtain ⟨h₁, hrelease, -, -⟩ := release_owns ho
        simp [hrelease]
      | true =>
        obtain ⟨d, hd⟩ := isSome_iff_exists.mp (hdata current mem_cons_self)
        obtain ⟨db, hdb⟩ := isSome_iff_exists.mp
          (ho.held current (mem_append_right _ (hsub current mem_cons_self)) d hd)
        have ho₁ := owns_new_shared current.priority current.messageBlockAllocator current.rdPtr current.wrPtr
          ho hdb rfl
        simp only [hd, duplicateDataBlock, hdb, bind_eq_bind, bind_some]
        exact ih _ (ho₁.perm (perm_last _ top l))
          (fun mb hmb => hsub mb (mem_cons_of_mem _ hmb)) fun mb hmb => hdata mb (mem_cons_of_mem _ hmb)

/-! ## Cloning -/

/-- The size and the bytes of another data block. -/
def Copies (db new : DataBlock) : Prop :=
  new.base.getD [] = db.base.getD [] ∧ new.curSize = db.curSize ∧ new.maxSize = db.maxSize ∧ new.type = db.type ∧
    new.lockingStrategy = db.lockingStrategy ∧ new.referenceCount = 1

theorem memcpy_getD (dst src : Option (List UInt8)) {n : Nat} (hdst : (dst.getD []).length = n)
    (hsrc : (src.getD []).length = n) : (memcpy dst src n).getD [] = src.getD [] := by
  cases dst with
  | none =>
    have hn : n = 0 := hdst.symm
    rw [hn] at hsrc
    rw [length_eq_zero_iff.mp hsrc]
    rfl
  | some bytes =>
    have hlen : bytes.length = n := hdst
    change (src.getD []).take n ++ bytes.drop n = src.getD []
    rw [← hlen, drop_length, append_nil, hlen, ← hsrc, take_length]

theorem cloneDataBlock_cases (ho : Owns h l) (hd : h.dataBlocks d = some db) (mask : MessageFlags) (allocs : Allocs) :
    ∃ h' r allocs', h.cloneDataBlock d mask allocs = some (h', r, allocs') ∧
      ((r = none ∧ takeDataBlock db.maxSize allocs = none ∧ Same h h') ∨
        (r = some h.next ∧ takeDataBlock db.maxSize allocs = some allocs' ∧
          ∃ new, Copies db new ∧ new.Sound ∧ Created h new h')) := by
  have hsound := ho.sound d db hd
  obtain ⟨h₁, r, allocs₁, hcreate, hcases⟩ := createDataBlock_cases ho db.maxSize db.type db.allocatorStrategy
    db.lockingStrategy db.flags db.dataBlockAllocator allocs hsound.flags
  unfold cloneDataBlock
  simp only [hd, bind_eq_bind, bind_some, hcreate]
  rcases hcases with ⟨rfl, htake, hsame⟩ | ⟨rfl, htake, base, hbase, hcreated⟩
  · exact ⟨h₁, none, allocs₁, rfl, .inl ⟨rfl, htake, hsame⟩⟩
  · have hnew := hcreated.data h.next
    simp only [hnew]
    refine ⟨_, _, _, rfl, .inr ⟨rfl, htake, { db with
      flags := db.flags &&& ~~~(mask ||| dontDelete)
      curSize := db.maxSize
      base := memcpy base db.base db.curSize
      referenceCount := 1 }, ?_, ?_, hcreated.next, hcreated.junk, fun e => ?_, fun c => ?_⟩⟩
    · refine ⟨?_, hsound.size.symm, rfl, rfl, rfl, rfl⟩
      rw [hsound.size]
      exact memcpy_getD base db.base hbase hsound.bytes
    · refine ⟨?_, rfl, ?_⟩
      · change db.flags &&& ~~~(mask ||| dontDelete) &&& dontDelete = 0
        rw [UInt64.and_assoc, UInt64.and_comm _ dontDelete, ← UInt64.and_assoc, hsound.flags, UInt64.zero_and]
      · change ((memcpy base db.base db.curSize).getD []).length = db.maxSize
        rw [hsound.size, memcpy_getD base db.base hbase hsound.bytes, hsound.bytes]
    · rw [setDataBlock_dataBlocks, hcreated.data]
      by_cases he : e = h.next
      · simp [he]
      · simp [he]
    · rw [setDataBlock_memory, hcreated.memory]
      cases base <;> rfl

/-- The size that a clone of the message block needs. -/
def sizeOf (h : Heap) (mb : MessageBlock) : Nat :=
  ((mb.dataBlock.bind h.dataBlocks).map (·.maxSize)).getD 0

/-- No allocation fails that a clone of blocks of these sizes needs. -/
def clones : List Nat → Allocs → Bool
  | [], _ => true
  | size :: sizes, allocs =>
    match takeDataBlock size allocs with
    | none => false
    | some allocs => (malloc allocs).1 && clones sizes (malloc allocs).2

/-- The same offsets, and the same bytes in a data block that was not there before. -/
def ClonedFrom (h h' : Heap) (old new : MessageBlock) : Prop :=
  new.rdPtr = old.rdPtr ∧ new.wrPtr = old.wrPtr ∧ new.priority = old.priority ∧
    new.messageBlockAllocator = old.messageBlockAllocator ∧
    ∃ d db d' db', old.dataBlock = some d ∧ h.dataBlocks d = some db ∧ new.dataBlock = some d' ∧
      h.next ≤ d' ∧ h'.dataBlocks d' = some db' ∧ Copies db db'

theorem cloneLoop_owns {root new lost : List MessageBlock} {mask : MessageFlags}
    (ho : Owns h (root ++ l)) (hsub : ∀ mb ∈ chain, mb ∈ l)
    (hclones : clones (chain.map h.sizeOf) allocs = true) (h' : Heap)
    (hclone : h.cloneLoop mask root allocs chain = some (h', new, lost)) :
    lost = [] ∧ Owns h' (new ++ l) ∧ h.next ≤ h'.next ∧ h'.junk = h.junk ∧
      (∀ d < h.next, h'.dataBlocks d = h.dataBlocks d) ∧
      ∃ copies, new = root ++ copies ∧ List.Forall₂ (ClonedFrom h h') chain copies := by
  induction chain generalizing h root allocs with
  | nil =>
    obtain ⟨rfl, rfl, rfl⟩ := hclone
    exact ⟨rfl, ho, Nat.le_refl _, rfl, fun _ _ => rfl, [], by simp, .nil⟩
  | cons old rest ih =>
    unfold cloneLoop at hclone
    cases hd : old.dataBlock with
    | none => simp [hd] at hclone
    | some d =>
      have hold := mem_append_right root (hsub old mem_cons_self)
      obtain ⟨db, hdb⟩ := isSome_iff_exists.mp (ho.held old hold d hd)
      obtain ⟨h₁, r, allocs₁, heq, hcases⟩ := cloneDataBlock_cases ho hdb mask allocs
      have hsize : h.sizeOf old = db.maxSize := by simp [sizeOf, hd, hdb]
      rw [map_cons, clones, hsize] at hclones
      simp only [hd, bind_eq_bind, bind_some, heq] at hclone
      rcases hcases with ⟨rfl, htake, -⟩ | ⟨rfl, htake, db', hcopies, hsound, hcreated⟩
      · rw [htake] at hclones
        cases hclones
      · rw [htake] at hclones
        cases hm : malloc allocs₁ with
        | mk ok allocs₂ =>
          simp only [hm, Bool.and_eq_true] at hclones
          obtain ⟨rfl, hclones⟩ := hclones
          simp only [hm] at hclone
          have ho₁ := owns_new_created old.priority old.messageBlockAllocator old.rdPtr old.wrPtr ho hcreated
            hcopies.2.2.2.2.2 hsound
          have hlt : ∀ mb ∈ rest, ∀ e, mb.dataBlock = some e → e ≠ h.next := fun mb hmb e he heq => by
            have hmem := mem_append_right root (hsub mb (mem_cons_of_mem _ hmb))
            obtain ⟨_, hdb⟩ := isSome_iff_exists.mp (ho.held mb hmem e he)
            exact Nat.ne_of_lt (ho.lt_next hdb) heq
          have hsizes : ∀ mb ∈ rest, (h₁.newMessageBlock old.priority (some h.next) old.messageBlockAllocator
              old.rdPtr old.wrPtr).1.sizeOf mb = h.sizeOf mb := fun mb hmb => by
            cases he : mb.dataBlock with
            | none => simp [sizeOf, he]
            | some e => simp [sizeOf, he, newMessageBlock, hcreated.data, hlt mb hmb e he]
          rw [← map_congr_left hsizes] at hclones
          obtain ⟨hlost, ho₂, hnext, hjunk, hsame, copies, rfl, hall⟩ := ih (ho₁.perm (perm_last _ root l))
            (fun mb hmb => hsub mb (mem_cons_of_mem _ hmb)) hclones hclone
          have hnext₁ : h₁.next = h.next + 1 := hcreated.next
          change h₁.next + 1 ≤ h'.next at hnext
          change ∀ d < h₁.next + 1, h'.dataBlocks d = h₁.dataBlocks d at hsame
          have hstep : ∀ e < h.next, h'.dataBlocks e = h.dataBlocks e := fun e he => by
            rw [hsame e (by omega), hcreated.data, if_neg (Nat.ne_of_lt he)]
          refine ⟨hlost, ho₂, by omega, hjunk.trans hcreated.junk, hstep, _, append_assoc root [_] copies,
            .cons ⟨rfl, rfl, rfl, rfl, d, db, h.next, db', hd, hdb, rfl, Nat.le_refl _, ?_, hcopies⟩ ?_⟩
          · rw [hsame h.next (by omega), hcreated.data, if_pos rfl]
          · refine ((forall₂_and_left _ _).mpr ⟨hlt, hall⟩).imp fun mb new hmb => ?_
            obtain ⟨hne, hrd, hwr, hprio, halloc, e, dbe, e', dbe', he, hdbe, he', hle, hdbe', hcop⟩ := hmb
            refine ⟨hrd, hwr, hprio, halloc, e, dbe, e', dbe', he, ?_, he', ?_, hdbe', hcop⟩
            · change h₁.dataBlocks e = some dbe at hdbe
              rw [hcreated.data, if_neg (hne e he)] at hdbe
              exact hdbe
            · change h₁.next + 1 ≤ e' at hle
              omega

theorem releaseDataBlock_created (ho : Owns h l) (hc : Created h db h') (hone : db.referenceCount = 1)
    (hs : db.Sound) : ∃ h'', h'.releaseDataBlock h.next = some h'' ∧ Same h h'' := by
  have hd : h'.dataBlocks h.next = some db := by simp [hc.data]
  have hzero : db.referenceCount - 1 = 0 := by omega
  have hc' : Created h { db with referenceCount := 0 } (h'.setDataBlock h.next (some { db with
      referenceCount := 0 })) := by
    refine ⟨hc.next, hc.junk, fun e => ?_, hc.memory⟩
    rw [setDataBlock_dataBlocks, hc.data]
    split <;> rfl
  obtain ⟨h'', hdestroy, hsame⟩ := destroy_created ho hc' hs.flags
  refine ⟨h'', ?_, hsame⟩
  simp only [releaseDataBlock, releaseNoDelete_eq none hd, bind_eq_bind, bind_some, hzero]
  exact hdestroy

theorem cloneLoop_isSome (root : List MessageBlock) {mask : MessageFlags} (ho : Owns h (root ++ l))
    (hsub : ∀ mb ∈ chain, mb ∈ l) (hdata : ∀ mb ∈ chain, mb.dataBlock.isSome) :
    (h.cloneLoop mask root allocs chain).isSome := by
  induction chain generalizing h root allocs with
  | nil => rfl
  | cons old rest ih =>
    obtain ⟨d, hd⟩ := isSome_iff_exists.mp (hdata old mem_cons_self)
    obtain ⟨db, hdb⟩ := isSome_iff_exists.mp
      (ho.held old (mem_append_right _ (hsub old mem_cons_self)) d hd)
    obtain ⟨h₁, r, allocs₁, heq, hcases⟩ := cloneDataBlock_cases ho hdb mask allocs
    unfold cloneLoop
    simp only [hd, bind_eq_bind, bind_some, heq]
    rcases hcases with ⟨rfl, -, -⟩ | ⟨rfl, -, db', hcopies, hsound, hcreated⟩
    · rfl
    · cases hm : malloc allocs₁ with
      | mk ok allocs₂ =>
        cases ok with
        | false =>
          obtain ⟨h₂, hrelease, -⟩ := releaseDataBlock_created ho hcreated hcopies.2.2.2.2.2 hsound
          cases ha : old.messageBlockAllocator with
          | none => simp [hm]
          | some a => simp [hm, hrelease]
        | true =>
          simp only [hm]
          have ho₁ := owns_new_created old.priority old.messageBlockAllocator old.rdPtr old.wrPtr ho hcreated
            hcopies.2.2.2.2.2 hsound
          exact ih _ (ho₁.perm (perm_last _ root l)) (fun mb hmb => hsub mb (mem_cons_of_mem _ hmb))
            fun mb hmb => hdata mb (mem_cons_of_mem _ hmb)

/-- A clone that fails at its first data block, or at the message block for it when that is
not from `new`, gives back what it has; a clone fails nowhere else. -/
def cloneKeeps (h : Heap) (allocs : Allocs) : List MessageBlock → Bool
  | [] => true
  | mb :: rest =>
    match takeDataBlock (h.sizeOf mb) allocs with
    | none => true
    | some left =>
      if (malloc left).1 then clones ((mb :: rest).map h.sizeOf) allocs else mb.messageBlockAllocator.isSome

theorem clone_owns {new lost : List MessageBlock} {mask : MessageFlags} (ho : Owns h l)
    (hsub : ∀ mb ∈ chain, mb ∈ l) (hkeeps : h.cloneKeeps allocs chain = true)
    (hclone : h.clone chain mask allocs = some (h', new, lost)) :
    lost = [] ∧ ((new = [] ∧ Same h h') ∨ (Owns h' (new ++ l) ∧ h.next ≤ h'.next ∧ h'.junk = h.junk ∧
      (∀ d < h.next, h'.dataBlocks d = h.dataBlocks d) ∧ List.Forall₂ (ClonedFrom h h') chain new)) := by
  cases chain with
  | nil =>
    cases hclone
    exact ⟨rfl, .inl ⟨rfl, Same.refl h⟩⟩
  | cons mb rest =>
    by_cases hclones : clones ((mb :: rest).map h.sizeOf) allocs = true
    · obtain ⟨hlost, ho', hnext, hjunk, hsame, copies, rfl, hall⟩ := cloneLoop_owns ho hsub hclones h' hclone
      exact ⟨hlost, .inr ⟨ho', hnext, hjunk, hsame, hall⟩⟩
    · unfold clone cloneLoop at hclone
      cases hd : mb.dataBlock with
      | none => simp [hd] at hclone
      | some d =>
        obtain ⟨db, hdb⟩ := isSome_iff_exists.mp (ho.held mb (hsub mb mem_cons_self) d hd)
        obtain ⟨h₁, r, allocs₁, heq, hcases⟩ := cloneDataBlock_cases ho hdb mask allocs
        have hsize : h.sizeOf mb = db.maxSize := by simp [sizeOf, hd, hdb]
        simp only [cloneKeeps, hsize] at hkeeps
        simp only [hd, bind_eq_bind, bind_some, heq] at hclone
        rcases hcases with ⟨rfl, htake, hsame⟩ | ⟨rfl, htake, db', hcopies, hsound, hcreated⟩
        · cases hclone
          exact ⟨rfl, .inl ⟨rfl, hsame⟩⟩
        · simp only [htake] at hkeeps
          cases hm : malloc allocs₁ with
          | mk ok allocs₂ =>
            cases ok with
            | true =>
              simp only [hm, if_true] at hkeeps
              exact absurd hkeeps hclones
            | false =>
              simp only [hm, Bool.false_eq_true, if_false] at hkeeps
              obtain ⟨a, ha⟩ := isSome_iff_exists.mp hkeeps
              obtain ⟨h₂, hrelease, hsame⟩ := releaseDataBlock_created ho hcreated hcopies.2.2.2.2.2 hsound
              simp only [hm, ha, hrelease, bind_some] at hclone
              cases hclone
              exact ⟨rfl, .inl ⟨rfl, hsame⟩⟩

theorem construct_owns {size : Nat} {type : Int} {a lock b m : Option Nat} {c : List MessageBlock}
    (ho : Owns h l) (hc : h.construct size type a lock priority b m allocs = some (h', c)) : Owns h' (c ++ l) := by
  unfold construct at hc
  cases hm : malloc allocs with
  | mk ok allocs =>
    rw [hm] at hc
    cases ok with
    | false =>
      obtain ⟨rfl, rfl⟩ := hc
      exact ho
    | true =>
      obtain ⟨h₁, r, allocs₁, hcreate, hcases⟩ := createDataBlock_cases ho size type (a.getD allocatorInstance) lock 0
        (b.getD allocatorInstance) allocs (UInt64.zero_and)
      simp only [hcreate, bind_eq_bind, bind_some] at hc
      cases hc
      rcases hcases with ⟨rfl, -, hsame⟩ | ⟨rfl, -, base, hbase, hcreated⟩
      · exact owns_new_none priority m 0 0 (ho.of_same hsame)
      · exact owns_new_created priority m 0 0 ho hcreated rfl ⟨UInt64.zero_and, rfl, hbase⟩

/-! ## The user's own accesses -/

theorem Owns.seek (ho : Owns h (mb :: rest)) (rdPtr wrPtr : Nat) :
    Owns h ({ mb with
      rdPtr := rdPtr
      wrPtr := wrPtr } :: rest) where
  refs d db hd := by
    have hrefs := ho.refs d db hd
    exact hrefs
  held m hm := by
    rcases mem_cons.mp hm with rfl | hm
    · exact ho.held mb mem_cons_self
    · exact ho.held m (mem_cons_of_mem _ hm)
  ids := ho.ids
  blocks m hm := by
    rcases mem_cons.mp hm with rfl | hm
    · exact ho.blocks mb mem_cons_self
    · exact ho.blocks m (mem_cons_of_mem _ hm)
  noMore m hm := by
    obtain ⟨m', hm', hid⟩ := ho.noMore m hm
    rcases mem_cons.mp hm' with rfl | hm'
    · exact ⟨_, mem_cons_self, hid⟩
    · exact ⟨m', mem_cons_of_mem _ hm', hid⟩
  objects := ho.objects
  bytes := ho.bytes
  sound := ho.sound
  unused := ho.unused

theorem Owns.write (ho : Owns h l) (hd : h.dataBlocks d = some db) {bytes : List UInt8}
    (hlen : db.base.map (·.length) = some bytes.length) :
    Owns (h.setDataBlock d (some { db with base := some bytes })) l := by
  obtain ⟨old, hold, hsame⟩ := map_eq_some_iff.mp hlen
  have hsound := ho.sound d db hd
  have hother : ∀ e, e ≠ d → (h.setDataBlock d (some { db with base := some bytes })).dataBlocks e =
      h.dataBlocks e := fun e he => by simp [he]
  have hself : (h.setDataBlock d (some { db with base := some bytes })).dataBlocks d =
      some { db with base := some bytes } := by simp
  refine ⟨fun e db' he => ?_, fun m hm e he => ?_, ho.ids, ho.blocks, ho.noMore, fun e => ?_, fun e => ?_,
    fun e db' he => ?_, fun i hi => ⟨?_, (ho.unused i hi).2⟩⟩
  · by_cases hed : e = d
    · subst hed
      cases hself.symm.trans he
      exact ho.refs e db hd
    · exact ho.refs e db' (hother e hed ▸ he)
  · by_cases hed : e = d
    · rw [hed, hself]
      rfl
    · rw [hother e hed]
      exact ho.held m hm e he
  · by_cases hed : e = d
    · subst hed
      rw [hself, setDataBlock_memory, ho.objects, hd]
      rfl
    · rw [hother e hed, setDataBlock_memory, ho.objects]
  · by_cases hed : e = d
    · subst hed
      rw [hself, setDataBlock_memory, ho.bytes, hd]
      simp [hold]
    · rw [hother e hed, setDataBlock_memory, ho.bytes]
  · by_cases hed : e = d
    · subst hed
      cases hself.symm.trans he
      refine ⟨hsound.flags, hsound.size, ?_⟩
      rw [← hsound.bytes, hold]
      exact hsame.symm
    · exact ho.sound e db' (hother e hed ▸ he)
  · have hne : i ≠ d := fun heq => by
      have := ho.lt_next hd
      have hge : h.next ≤ i := hi
      omega
    rw [hother i hne, (ho.unused i hi).1]

end Heap

namespace BlockSys

/-! ## Runs -/

/-- A `clone` fails only where it gives back what it has. -/
def Keeps (s : BlockSys) : BlockOp → Prop
  | .clone i _ allocs => s.heap.cloneKeeps allocs (s.chains[i]?.getD []) = true
  | _ => True

instance (s : BlockSys) : DecidablePred s.Keeps
  | .clone i _ allocs => inferInstanceAs (Decidable (s.heap.cloneKeeps allocs (s.chains[i]?.getD []) = true))
  | .construct .. | .cont .. | .duplicate .. | .release .. | .seek .. | .write .. => inferInstanceAs (Decidable True)

/-- The message blocks in use are the user's, and nothing is lost. -/
structure Exact (s : BlockSys) : Prop where
  owns : s.heap.Owns s.chains.flatten
  lost : s.lost = []

theorem exact_fresh (junk : Nat → UInt8) : (fresh junk).Exact where
  owns :=
    { refs := fun d db hd => by cases hd
      held := fun mb hm => by cases hm
      ids := nodup_nil
      blocks := fun mb hm => by cases hm
      noMore := fun m hm => absurd rfl hm
      objects := fun d => rfl
      bytes := fun d => rfl
      sound := fun d db hd => by cases hd
      unused := fun i _ => ⟨rfl, rfl⟩ }
  lost := rfl

variable {s s' : BlockSys} {chains : List (List MessageBlock)} {ci : List MessageBlock} {i k : Nat}

/-- One pointer gets another chain. -/
theorem count_set_flatten (hi : chains[i]? = some ci) (c : List MessageBlock) (mb : MessageBlock) :
    (chains.set i c).flatten.count mb + ci.count mb = chains.flatten.count mb + c.count mb := by
  induction chains generalizing i with
  | nil => simp at hi
  | cons c₀ chains ih =>
    cases i with
    | zero =>
      cases hi
      simp only [set_cons_zero, flatten_cons, count_append]
      omega
    | succ i =>
      have := ih hi
      simp only [set_cons_succ, flatten_cons, count_append]
      omega

theorem push_flatten (chains : List (List MessageBlock)) (c : List MessageBlock) :
    (c ++ chains.flatten).Perm (chains ++ [c]).flatten := by
  rw [flatten_append, flatten_singleton]
  exact perm_append_comm

theorem flatten_release (hi : chains[i]? = some ci) : chains.flatten.Perm (ci ++ (chains.set i []).flatten) := by
  rw [perm_iff_count]
  intro mb
  have := count_set_flatten hi [] mb
  simp only [count_append, count_nil] at this ⊢
  omega

theorem sub_flatten (hi : chains[i]? = some ci) : ∀ mb ∈ ci, mb ∈ chains.flatten := fun _ hm =>
  mem_flatten.mpr ⟨ci, mem_of_getElem? hi, hm⟩

theorem flatten_cont {cj : List MessageBlock} {j : Nat} (hi : chains[i]? = some ci) (hj : chains[j]? = some cj)
    (hne : i ≠ j) (k : Nat) :
    chains.flatten.Perm ((chains.set i (ci.take (k + 1) ++ cj)).set j (ci.drop (k + 1))).flatten := by
  rw [perm_iff_count]
  intro mb
  have hj' : (chains.set i (ci.take (k + 1) ++ cj))[j]? = some cj := by
    rw [getElem?_set_ne hne, hj]
  have hset := count_set_flatten hi (ci.take (k + 1) ++ cj) mb
  have hset' := count_set_flatten hj' (ci.drop (k + 1)) mb
  have hsplit : ci.count mb = (ci.take (k + 1)).count mb + (ci.drop (k + 1)).count mb := by
    rw [← count_append, take_append_drop]
  rw [count_append] at hset
  omega

theorem flatten_seek (hi : chains[i]? = some ci) (hk : ci[k]? = some mb) (new : MessageBlock) :
    chains.flatten.Perm (mb :: (chains.eraseIdx i).flatten ++ ci.eraseIdx k) ∧
      (chains.set i (ci.set k new)).flatten.Perm (new :: (chains.eraseIdx i).flatten ++ ci.eraseIdx k) := by
  obtain ⟨hlt, rfl⟩ := List.getElem?_eq_some_iff.mp hi
  obtain ⟨hklt, rfl⟩ := List.getElem?_eq_some_iff.mp hk
  have hperm : ∀ {x : MessageBlock} {c : List MessageBlock}, c.Perm (x :: chains[i].eraseIdx k) →
      (c ++ (chains.eraseIdx i).flatten).Perm (x :: (chains.eraseIdx i).flatten ++ chains[i].eraseIdx k) :=
    fun hc => (hc.append_right _).trans (perm_append_comm.cons _)
  constructor
  · exact (getElem_cons_eraseIdx_perm hlt).symm.flatten.trans
      (hperm (getElem_cons_eraseIdx_perm hklt).symm)
  · exact (set_perm_cons_eraseIdx hlt _).flatten.trans (hperm (set_perm_cons_eraseIdx hklt new))

theorem exact_step {op : BlockOp} (hs : s.Exact) (hk : s.Keeps op) (h : s.step op = some s') : s'.Exact := by
  cases op with
  | construct size type allocatorStrategy lockingStrategy priority dataBlockAllocator messageBlockAllocator allocs =>
    obtain ⟨⟨heap, c⟩, hc, heq⟩ := bind_eq_some_iff.mp h
    cases heq
    refine ⟨?_, hs.lost⟩
    refine Heap.Owns.perm ?_ (push_flatten s.chains c)
    exact Heap.construct_owns priority hs.owns hc
  | cont i k j =>
    obtain ⟨ci, hi, h⟩ := bind_eq_some_iff.mp h
    obtain ⟨cj, hj, h⟩ := bind_eq_some_iff.mp h
    split at h
    · cases h
    · next hne =>
      cases h
      exact ⟨hs.owns.perm (flatten_cont hi hj (fun heq => hne (.inl heq)) k), hs.lost⟩
  | duplicate i allocs =>
    obtain ⟨ci, hi, h⟩ := bind_eq_some_iff.mp h
    obtain ⟨⟨heap, c⟩, hc, heq⟩ := bind_eq_some_iff.mp h
    cases heq
    have ho := (Heap.duplicateLoop_owns [] hs.owns (sub_flatten hi) heap hc).1
    exact ⟨ho.perm (push_flatten s.chains c), hs.lost⟩
  | clone i mask allocs =>
    obtain ⟨ci, hi, h⟩ := bind_eq_some_iff.mp h
    obtain ⟨⟨heap, c, lost⟩, hc, heq⟩ := bind_eq_some_iff.mp h
    cases heq
    have hkeeps : s.heap.cloneKeeps allocs ci = true := by
      have := hk
      simpa [Keeps, hi] using this
    obtain ⟨rfl, ⟨rfl, hsame⟩ | ⟨ho, -⟩⟩ := Heap.clone_owns hs.owns (sub_flatten hi) hkeeps hc
    · refine ⟨?_, hs.lost⟩
      exact (hs.owns.of_same hsame).perm (push_flatten s.chains [])
    · exact ⟨ho.perm (push_flatten s.chains c), hs.lost⟩
  | release i =>
    obtain ⟨ci, hi, h⟩ := bind_eq_some_iff.mp h
    obtain ⟨heap, hc, heq⟩ := bind_eq_some_iff.mp h
    cases heq
    obtain ⟨heap', hrelease, ho, -⟩ := Heap.release_owns (hs.owns.perm (flatten_release hi))
    cases hrelease.symm.trans hc
    exact ⟨ho, hs.lost⟩
  | seek i k rdPtr wrPtr =>
    obtain ⟨ci, hi, h⟩ := bind_eq_some_iff.mp h
    obtain ⟨mb, hmb, heq⟩ := bind_eq_some_iff.mp h
    cases heq
    obtain ⟨hold, hnew⟩ := flatten_seek hi hmb { mb with rdPtr, wrPtr }
    exact ⟨((hs.owns.perm hold).seek rdPtr wrPtr).perm hnew.symm, hs.lost⟩
  | write i k bytes =>
    obtain ⟨ci, -, h⟩ := bind_eq_some_iff.mp h
    obtain ⟨mb, -, h⟩ := bind_eq_some_iff.mp h
    obtain ⟨d, -, h⟩ := bind_eq_some_iff.mp h
    obtain ⟨db, hdb, h⟩ := bind_eq_some_iff.mp h
    split at h
    · next hlen =>
      cases h
      exact ⟨hs.owns.write hdb hlen, hs.lost⟩
    · cases h

/-- Between the operations of such a run the counts are exact and the memory is that of the
user's chains; and each of the operations on a chain does what it is for. -/
theorem exact_of_keeps {junk : Nat → UInt8} {ops : List BlockOp} (hk : AllSteps step Keeps (fresh junk) ops)
    (h : run step (fresh junk) ops = some s) :
    (∀ d db, s.heap.dataBlocks d = some db → db.referenceCount = refsTo d s.live) ∧
    (∀ d, (s.heap.dataBlocks d).isSome ↔ 0 < refsTo d s.live) ∧
    (∀ d, s.heap.memory (.dataBlock d) = (s.heap.dataBlocks d).map fun db => some db.dataBlockAllocator) ∧
    (∀ d, s.heap.memory (.bytes d) =
      (s.heap.dataBlocks d).bind fun db => db.base.map fun _ => some db.allocatorStrategy) ∧
    (∀ m, s.heap.memory (.messageBlock m) ≠ none ↔ ∃ mb ∈ s.chains.flatten, mb.id = m) ∧
    (∀ chain ∈ s.chains, (s.heap.release chain).isSome ∧ ((∀ mb ∈ chain, mb.dataBlock.isSome) →
      ∀ allocs mask, (s.heap.duplicate chain allocs).isSome ∧ (s.heap.clone chain mask allocs).isSome)) ∧
    (∀ chain ∈ s.chains, ∀ allocs heap dup, s.heap.duplicate chain allocs = some (heap, dup) →
      (dup = [] ∧ heap.memory = s.heap.memory ∧ heap.dataBlocks = s.heap.dataBlocks) ∨
      (List.Forall₂ Heap.Shares chain dup ∧ ∀ d db', heap.dataBlocks d = some db' →
        ∃ db, s.heap.dataBlocks d = some db ∧ db.Alike db' ∧
          db'.referenceCount = db.referenceCount + refsTo d dup)) ∧
    (∀ chain ∈ s.chains, ∀ mask allocs heap new lost, s.heap.cloneKeeps allocs chain = true →
      s.heap.clone chain mask allocs = some (heap, new, lost) →
      (new = [] ∧ heap.memory = s.heap.memory ∧ heap.dataBlocks = s.heap.dataBlocks) ∨
      (List.Forall₂ (Heap.ClonedFrom s.heap heap) chain new ∧
        ∀ d, (s.heap.dataBlocks d).isSome → heap.dataBlocks d = s.heap.dataBlocks d)) := by
  have hstep : ∀ s op s', Exact s → Keeps s op → step s op = some s' → Exact s' :=
    fun s op s' hs hk h => exact_step hs hk h
  have hs := run_inv_of hstep (exact_fresh junk) hk h
  have ho := hs.owns
  have hlive : s.live = s.chains.flatten := by rw [live, hs.lost, append_nil]
  have hsub : ∀ chain ∈ s.chains, ∀ mb ∈ chain, mb ∈ s.chains.flatten :=
    fun chain hc mb hm => mem_flatten.mpr ⟨chain, hc, hm⟩
  rw [hlive]
  refine ⟨fun d db hd => (ho.refs d db hd).1, fun d => ho.isSome_iff, ho.objects, ho.bytes, fun m => ⟨ho.noMore m, ?_⟩,
    fun chain hc => ?_, fun chain hc allocs heap dup hdup => ?_,
    fun chain hc mask allocs heap new lost hkeeps hclone => ?_⟩
  · rintro ⟨mb, hm, rfl⟩
    rw [ho.blocks mb hm]
    exact some_ne_none _
  · obtain ⟨i, hi⟩ := getElem?_of_mem hc
    obtain ⟨heap, hrelease, -⟩ := Heap.release_owns (ho.perm (flatten_release hi))
    refine ⟨by simp [hrelease], fun hdata allocs mask => ⟨?_, ?_⟩⟩
    · exact Heap.duplicateLoop_isSome [] ho (hsub chain hc) hdata
    · exact Heap.cloneLoop_isSome [] ho (hsub chain hc) hdata
  · obtain ⟨ho', hkept, hdup⟩ := Heap.duplicateLoop_owns [] ho (hsub chain hc) heap hdup
    rcases hdup with rfl | ⟨dup, rfl, hall⟩
    · exact .inl ⟨rfl, ho.unchanged ho' hkept⟩
    · refine .inr ⟨hall, fun d db' hd => ?_⟩
      have hrefs := ho'.refs d db' hd
      have hsome : (s.heap.dataBlocks d).isSome := by
        obtain ⟨mb, hm, hmb⟩ := refsTo_pos.mp hrefs.2
        rcases mem_append.mp hm with hm | hm
        · obtain ⟨current, hcur, heq⟩ := Heap.shares_mem hall hm
          exact ho.held current (hsub chain hc current hcur) d (heq ▸ hmb)
        · exact ho.held mb hm d hmb
      obtain ⟨db₀, hdb₀⟩ := isSome_iff_exists.mp hsome
      obtain ⟨db, hdb, halike⟩ := hkept.alike d (ho.lt_next hdb₀) db' hd
      have hcount : refsTo d (dup ++ s.chains.flatten) = refsTo d dup + refsTo d s.chains.flatten :=
        countP_append
      have hold := (ho.refs d db hdb).1
      exact ⟨db, hdb, halike, by omega⟩
  · obtain ⟨-, ⟨rfl, hsame⟩ | ⟨-, -, -, hsame, hall⟩⟩ := Heap.clone_owns ho (hsub chain hc) hkeeps hclone
    · exact .inl ⟨rfl, hsame.memory, hsame.dataBlocks⟩
    · refine .inr ⟨hall, fun d hd => ?_⟩
      obtain ⟨db, hdb⟩ := isSome_iff_exists.mp hd
      exact hsame d (ho.lt_next hdb)

/-- Two linked blocks, the first with a lock and the other one from an allocator, and a
duplicate and a clone of them; then the first chain is released. A second duplicate fails. -/
def sampleSharing : List BlockOp :=
  [.construct 4 0 none (some 7) 0 none none [], .construct 2 0 (some 3) none 0 (some 5) (some 9) [], .cont 0 0 1,
    .write 0 1 [1, 2], .seek 0 1 0 2, .duplicate 0 [], .clone 0 0 [], .release 0, .duplicate 2 [true, false]]

theorem exact_of_keeps_sample : ∃ s, run step (fresh fun _ => 0) sampleSharing = some s ∧
    s.chains.map List.length = [0, 0, 2, 2, 0] ∧ refsTo 2 s.live = 1 ∧
    (∀ d db, s.heap.dataBlocks d = some db → db.referenceCount = refsTo d s.live) := by
  have hkeeps : AllSteps step Keeps (fresh fun _ => 0) sampleSharing := by decide
  exact ⟨_, rfl, by decide, by decide, (exact_of_keeps hkeeps rfl).1⟩

/-- The clone of a chain of two blocks whose second data block cannot be allocated leaves
the copy of the first block behind. The clone of a block from `new` whose message block
cannot be allocated leaves a data block that no message block refers to. -/
theorem clone_leaks :
    (∃ s, run step (fresh fun _ => 0)
        [.construct 4 0 none none 0 none none [], .construct 4 0 none none 0 none none [],
        .cont 0 0 1, .clone 0 0 [true, true, true, false]] = some s ∧
      s.chains[2]? = some [] ∧ s.heap.memory (.messageBlock 5) = some none ∧
      ¬ ∃ mb ∈ s.chains.flatten, mb.id = 5) ∧
    (∃ s, run step (fresh fun _ => 0) [.construct 4 0 none none 0 none none [],
        .clone 0 0 [true, true, false]] = some s ∧
      s.chains[1]? = some [] ∧ (s.heap.dataBlocks 2).map (·.referenceCount) = some 1 ∧ refsTo 2 s.live = 0) :=
  ⟨⟨_, rfl, by decide⟩, ⟨_, rfl, by decide⟩⟩

end BlockSys

end Atcd.Message.Sharing
