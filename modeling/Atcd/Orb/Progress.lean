import Atcd.Orb.Incoming
/-!
# Progress of the receive loop

The size of a message is the payload size of its header plus 12, in 32 bits. A peer may write any
payload size; here the bytes of the buffer are arbitrary. The loop over the buffer is that of
`Incoming.handleInputParseExtraMessages`, with a result of its own when its turns run out.

Results:
* `framing_progresses_iff`: messages that are reported whole have a header, and the loop ends
  within as many turns as there are bytes, exactly if no payload size makes the sum wrap.
* `extract_consumes`: a turn that does not meet such a header takes bytes from the buffer.
* `loop_endless`: with a size of 0 the loop takes any number of turns.
-/
namespace Atcd.Orb

open Atcd.Core Atcd.Giop.Framing List Option
open Atcd.Giop (messageHeaderLen MessageState)

/-! ## The loop -/

section Loop

variable {σ : Type} (P : InputParams σ)

/-- What the loop does with a message that it has extracted.
mirrors TAO/tao/Transport.cpp:2024-2036 -/
def takeMessage (t : Incoming σ) (qData : QueuedData) : Option (Incoming σ) :=
  if qData.missingData = some 0 then t.consolidateEnqueueMessage P qData
  else some { t with incomingMessageStack := qData :: t.incomingMessageStack }

/-- `none` when the turns run out, `some none` for -1.
mirrors Transport.cpp:2006-2047 -/
def parseLoop : Nat → Incoming σ → List UInt8 → Option (Option (Incoming σ × List UInt8))
  | 0, t, messageBlock => if messageBlock = [] then some (some (t, [])) else none
  | turns + 1, t, messageBlock =>
    if messageBlock = [] then some (some (t, []))
    else
      match extractNextMessage P.host messageBlock with
      | none => some none
      | some (none, messageBlock) => some (some (t, messageBlock))
      | some (some qData, messageBlock) =>
        match takeMessage P t qData with
        | none => some none
        | some t => parseLoop turns t messageBlock

/-- The contents of the buffer at the turns of the loop. -/
def visited : Nat → Incoming σ → List UInt8 → List (List UInt8)
  | 0, _, _ => []
  | turns + 1, t, messageBlock =>
    if messageBlock = [] then []
    else
      messageBlock ::
        match extractNextMessage P.host messageBlock with
        | some (some qData, messageBlock) =>
          match takeMessage P t qData with
          | none => []
          | some t => visited turns t messageBlock
        | _ => []

end Loop

/-! ## Messages -/

/-- The header of the bytes is one that the parser accepts, and its size wraps. -/
def Wraps (host : Endian) (bytes : List UInt8) : Prop :=
  messageHeaderLen ≤ bytes.length ∧ ∃ state, parseMessageHeader host freshState bytes = some state ∧
    2 ^ 32 - 12 ≤ state.payloadSize.toNat

/-- A message that `extract_next_message` reports as whole has a header. -/
def ExtractsFrames (host : Endian) (incoming : List UInt8) : Prop :=
  ∀ qd left, extractNextMessage host incoming = some (some qd, left) → qd.missingData = some 0 →
    messageHeaderLen ≤ qd.msgBlock.length

/-- A message that `parse_next_message` reports as whole has a header. -/
def ParsesFrames (host : Endian) (qd : QueuedData) : Prop :=
  ∀ qd' mesgLength, parseNextMessage host qd = some (qd', mesgLength) → qd'.missingData = some 0 →
    messageHeaderLen ≤ mesgLength

/-- The turn takes bytes from the buffer. -/
def Consumes (host : Endian) (incoming : List UInt8) : Prop :=
  ∀ qd left, extractNextMessage host incoming = some (some qd, left) →
    left.length < incoming.length

variable {host : Endian} {bytes : List UInt8}

theorem messageSize_cases (state : MessageState) : (state.payloadSize.toNat < 2 ^ 32 - 12 ∧
      messageSize state = state.payloadSize.toNat + messageHeaderLen) ∨
    (2 ^ 32 - 12 ≤ state.payloadSize.toNat ∧ messageSize state < messageHeaderLen) := by
  have hlt := state.payloadSize.toNat_lt
  have hsum : messageSize state = (state.payloadSize.toNat + 12) % 2 ^ 32 := UInt32.toNat_add _ _
  unfold messageHeaderLen
  omega

theorem wraps_iff {state : MessageState} (hlen : messageHeaderLen ≤ bytes.length)
    (hstate : parseMessageHeader host freshState bytes = some state) :
    Wraps host bytes ↔ messageSize state < messageHeaderLen := by
  have hcases := messageSize_cases state
  have hwraps : Wraps host bytes ↔ 2 ^ 32 - 12 ≤ state.payloadSize.toNat := by
    constructor
    · intro hw
      obtain ⟨-, state', hstate', hle⟩ := hw
      rw [hstate] at hstate'
      cases hstate'
      exact hle
    · exact fun hle => ⟨hlen, state, hstate, hle⟩
  rw [hwraps]
  omega

theorem not_wraps_of_short (h : bytes.length < messageHeaderLen) : ¬Wraps host bytes := by
  intro hw
  have hle := hw.1
  omega

theorem not_wraps_of_refused (h : parseMessageHeader host freshState bytes = none) :
    ¬Wraps host bytes := by
  intro hw
  obtain ⟨-, state, hstate, -⟩ := hw
  rw [h] at hstate
  cases hstate

/-- **`extract_next_message`** on any bytes. -/
theorem extractsFrames_iff (host : Endian) (incoming : List UInt8) :
    ExtractsFrames host incoming ↔ ¬Wraps host incoming := by
  unfold ExtractsFrames extractNextMessage
  by_cases hshort : incoming.length < messageHeaderLen
  · refine iff_of_true (fun qd left h hmissing => ?_) (not_wraps_of_short hshort)
    rw [if_pos hshort] at h
    split at h
    · cases h
      cases hmissing
    · cases h
  · have hlen := Nat.not_lt.mp hshort
    rw [if_neg hshort]
    cases hstate : parseMessageHeader host freshState incoming with
    | none => exact iff_of_true (fun qd left h => nomatch h) (not_wraps_of_refused hstate)
    | some state =>
      rw [wraps_iff hlen hstate, map_some]
      by_cases hpart : incoming.length < messageSize state
      · rw [if_pos hpart]
        refine iff_of_true (fun qd left h hmissing => ?_) (by omega)
        cases h
        omega
      · rw [if_neg hpart]
        constructor
        · intro h
          have htake := h _ _ rfl rfl
          rw [length_take] at htake
          omega
        · intro hsize qd left h _
          cases h
          rw [length_take]
          omega

/-- **`parse_next_message`** on any bytes. -/
theorem parsesFrames_iff (host : Endian) (qd : QueuedData) :
    ParsesFrames host qd ↔ ¬Wraps host qd.msgBlock := by
  unfold ParsesFrames parseNextMessage
  by_cases hshort : qd.msgBlock.length < messageHeaderLen
  · refine iff_of_true (fun qd' len h hmissing => ?_) (not_wraps_of_short hshort)
    rw [if_pos hshort] at h
    cases h
    cases hmissing
  · have hlen := Nat.not_lt.mp hshort
    rw [if_neg hshort]
    cases hstate : parseMessageHeader host freshState qd.msgBlock with
    | none => exact iff_of_true (fun qd' len h => nomatch h) (not_wraps_of_refused hstate)
    | some state =>
      rw [wraps_iff hlen hstate, map_some]
      dsimp only
      by_cases hpart : qd.msgBlock.length < messageSize state
      · rw [if_pos hpart]
        refine iff_of_true (fun qd' len h hmissing => ?_) (by omega)
        cases h
        omega
      · rw [if_neg hpart]
        constructor
        · intro h
          have hle := h _ _ rfl rfl
          omega
        · intro hsize qd' len h _
          cases h
          omega

/-- A turn takes bytes from the buffer, unless the size wraps. -/
theorem extract_consumes (h : ¬Wraps host bytes) (hne : bytes ≠ []) : Consumes host bytes := by
  have hpos := length_pos_iff.mpr hne
  unfold Consumes extractNextMessage
  by_cases hshort : bytes.length < messageHeaderLen
  · intro qd left hextract
    rw [if_pos hshort, if_pos hpos] at hextract
    cases hextract
    exact hpos
  · have hlen := Nat.not_lt.mp hshort
    intro qd left hextract
    rw [if_neg hshort] at hextract
    obtain ⟨state, hstate, hextract⟩ := map_eq_some_iff.mp hextract
    rw [wraps_iff hlen hstate] at h
    dsimp only at hextract
    split at hextract
    · cases hextract
      exact hpos
    · cases hextract
      have hheader : 0 < messageHeaderLen := by decide
      rw [length_drop]
      omega

/-! ## Turns of the loop -/

section Turns

variable {σ : Type} {P : InputParams σ}

theorem loop_terminates {turns : Nat} {t : Incoming σ} (hturns : bytes.length ≤ turns)
    (h : ∀ b ∈ visited P turns t bytes, Consumes P.host b) :
    (parseLoop P turns t bytes).isSome := by
  induction turns generalizing t bytes with
  | zero =>
    obtain rfl := eq_nil_of_length_eq_zero (Nat.le_zero.mp hturns)
    rfl
  | succ turns ih =>
    unfold parseLoop
    unfold visited at h
    by_cases hne : bytes = []
    · rw [if_pos hne]
      rfl
    rw [if_neg hne] at h ⊢
    obtain ⟨hconsumes, hrest⟩ := forall_mem_cons.mp h
    cases hextract : extractNextMessage P.host bytes with
    | none => rfl
    | some r =>
      obtain ⟨qd, left⟩ := r
      cases qd with
      | none => rfl
      | some qData =>
        have hlt := hconsumes qData left hextract
        rw [hextract] at hrest
        dsimp only at hrest ⊢
        cases htake : takeMessage P t qData with
        | none => rfl
        | some t' =>
          rw [htake] at hrest
          exact ih (by omega) hrest

theorem visited_ne_nil {turns : Nat} {t : Incoming σ} :
    ∀ b ∈ visited P turns t bytes, b ≠ [] := by
  induction turns generalizing t bytes with
  | zero => exact fun b hb => absurd hb not_mem_nil
  | succ turns ih =>
    unfold visited
    split
    · exact fun b hb => absurd hb not_mem_nil
    · rename_i hne
      refine forall_mem_cons.mpr ⟨hne, ?_⟩
      split
      · split
        · exact fun b hb => absurd hb not_mem_nil
        · exact ih
      · exact fun b hb => absurd hb not_mem_nil

/-- What the loop promises for this buffer. -/
structure Progresses (P : InputParams σ) (t : Incoming σ) (messageBlock : List UInt8) : Prop where
  frames : ∀ turns, ∀ b ∈ visited P turns t messageBlock, ExtractsFrames P.host b
  consumes : ∀ turns, ∀ b ∈ visited P turns t messageBlock, Consumes P.host b
  ends : (parseLoop P messageBlock.length t messageBlock).isSome

/-- **Input framing makes progress** on any bytes, exactly if no payload size in the headers that
are reached is among the last twelve. -/
theorem framing_progresses_iff (P : InputParams σ) :
    (∀ incoming, ExtractsFrames P.host incoming ↔ ¬Wraps P.host incoming) ∧
      (∀ qd, ParsesFrames P.host qd ↔ ¬Wraps P.host qd.msgBlock) ∧
      ∀ t messageBlock, Progresses P t messageBlock ↔
        ∀ turns, ∀ b ∈ visited P turns t messageBlock, ¬Wraps P.host b := by
  refine ⟨extractsFrames_iff P.host, parsesFrames_iff P.host, fun t messageBlock => ?_⟩
  constructor
  · intro h turns b hb
    exact (extractsFrames_iff P.host b).mp (h.frames turns b hb)
  · intro h
    have hconsumes : ∀ turns, ∀ b ∈ visited P turns t messageBlock, Consumes P.host b := by
      intro turns b hb
      exact extract_consumes (h turns b hb) (visited_ne_nil b hb)
    refine ⟨fun turns b hb => ?_, hconsumes, ?_⟩
    · exact (extractsFrames_iff P.host b).mpr (h turns b hb)
    · exact loop_terminates (Nat.le_refl _) (hconsumes messageBlock.length)

/-- A message of no bytes leaves the buffer as it is, and is put into the queue. -/
theorem loop_endless {state : MessageState} (hlen : messageHeaderLen ≤ bytes.length)
    (hstate : parseMessageHeader P.host freshState bytes = some state)
    (hzero : messageSize state = 0)
    (hwhole : ¬(state.moreFragments = true ∨ state.messageType = .fragment)) (turns : Nat)
    (t : Incoming σ) : parseLoop P turns t bytes = none := by
  have hpos : 0 < messageHeaderLen := by decide
  have hne : bytes ≠ [] := length_pos_iff.mp (by omega)
  have hextract : extractNextMessage P.host bytes = some (some ⟨[], some 0, state⟩, bytes) := by
    unfold extractNextMessage
    rw [if_neg (Nat.not_lt.mpr hlen), hstate, map_some]
    rw [hzero, if_neg (Nat.not_lt_zero _), take_zero, drop_zero]
  induction turns generalizing t with
  | zero =>
    unfold parseLoop
    rw [if_neg hne]
  | succ turns ih =>
    have htake : takeMessage P t ⟨[], some 0, state⟩ = some { t with
        incomingMessageQueue := t.incomingMessageQueue ++ [⟨[], some 0, state⟩] } := by
      unfold takeMessage Incoming.consolidateEnqueueMessage
      rw [if_pos rfl, if_neg (not_not.mpr rfl), if_neg hwhole]
    unfold parseLoop
    rw [if_neg hne, hextract]
    dsimp only
    rw [htake]
    exact ih _

/-- A header of GIOP 1.2 with the payload size `2 ^ 32 - 12`. -/
def wrappedHeader : List UInt8 :=
  [0x47, 0x49, 0x4f, 0x50, 1, 2, 1, 0, 0xf4, 0xff, 0xff, 0xff]

theorem maxAlignment_pos : 0 < Cdr.maxAlignment := by decide

/-- A transport that keeps no fragments. -/
def noFragments : InputParams Unit where
  host := .little
  singleReadOptimization := true
  skipped := ⟨0, maxAlignment_pos⟩
  consolidateFragmentedMessage fragments _ := (fragments, .error)
  discardFragmentedMessage fragments _ := fragments

/-- The header is a message of no bytes, and the loop takes it again and again. -/
theorem wrapped_header_endless : ¬ExtractsFrames .little wrappedHeader ∧
    ¬ParsesFrames .little ⟨wrappedHeader, none, freshState⟩ ∧
    ¬∃ turns, (parseLoop noFragments turns (Incoming.start () []) wrappedHeader).isSome := by
  have hstate : parseMessageHeader .little freshState wrappedHeader =
      some ⟨⟨1, 2⟩, 1, .request, 2 ^ 32 - 12, false⟩ := by decide
  have hwraps : Wraps .little wrappedHeader :=
    ⟨by decide, _, hstate, by decide⟩
  refine ⟨?_, ?_, fun h => ?_⟩
  · exact fun h => (extractsFrames_iff _ _).mp h hwraps
  · exact fun h => (parsesFrames_iff _ _).mp h hwraps
  · obtain ⟨turns, hsome⟩ := h
    rw [loop_endless (P := noFragments) (by decide) hstate (by decide) (by decide)] at hsome
    cases hsome

end Turns

end Atcd.Orb
