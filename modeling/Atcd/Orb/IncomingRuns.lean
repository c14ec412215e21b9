import Atcd.Core.Run
import Atcd.Orb.Incoming
/-!
# Message framing over runs

Results:
* `framing`: however `recv` cuts the bytes of well-formed, unfragmented messages, no call of
  `handle_input` fails, and what it has processed is a first part of the messages, all of
  them once nothing is left in the connection and in the queue; until then some call goes on.
-/
namespace Atcd.Orb

open Atcd.Core Atcd.Giop.Framing List Option GiopMessage Nat
open Atcd.Giop (messageHeaderLen)

namespace Incoming

variable {σ : Type} {P : InputParams σ} {t t' : Incoming σ} {m : GiopMessage} {messages done rest : List GiopMessage}
  {block c : List UInt8}

def bytesOf (messages : List GiopMessage) : List UInt8 := messages.flatMap GiopMessage.bytes

theorem bytesOf_cons (m : GiopMessage) (rest : List GiopMessage) : bytesOf (m :: rest) = m.bytes ++ bytesOf rest :=
  flatMap_cons

/-- Bytes belong to a message. -/
theorem exists_first {input : List UInt8} (h : block ++ input = bytesOf rest) (hne : block ≠ []) :
    ∃ m rest', rest = m :: rest' ∧ m.Starts block := by
  cases rest with
  | nil => exact absurd (append_eq_nil_iff.mp h).1 hne
  | cons m rest' => exact ⟨m, rest', rfl, input, bytesOf rest', h.trans (bytesOf_cons m rest')⟩

theorem drop_first {input : List UInt8} (h : block ++ input = bytesOf (m :: rest))
    (hle : m.bytes.length ≤ block.length) :
    block.take m.bytes.length = m.bytes ∧ block.drop m.bytes.length ++ input = bytesOf rest := by
  rw [bytesOf_cons] at h
  have hstarts : m.Starts block := ⟨input, bytesOf rest, h⟩
  refine ⟨hstarts.take_bytes hle, ?_⟩
  have hdrop := congrArg (drop m.bytes.length) h
  rwa [drop_append_of_le_length hle, drop_left' rfl] at hdrop

/-! ## One message -/

theorem queued_state (m : GiopMessage) : m.state.moreFragments = false ∧
    (m.state.messageType = .request ∨ m.state.messageType = .reply) := by
  refine ⟨rfl, ?_⟩
  simp only [state]
  cases m.reply with
  | true => exact .inr rfl
  | false => exact .inl rfl

theorem processParsedMessages_queued (t : Incoming σ) (m : GiopMessage) :
    processParsedMessages P t m.queued = some { t with processed := t.processed ++ [m.queued] } := by
  have htype : m.queued.state.messageType = .request ∨ m.queued.state.messageType = .reply := (queued_state m).2
  unfold processParsedMessages
  rcases htype with h | h <;> rw [h]

theorem not_fragment (m : GiopMessage) :
    ¬(m.queued.state.moreFragments = true ∨ m.queued.state.messageType = .fragment) := by
  obtain ⟨hmore, htype⟩ := queued_state m
  rintro (h | h)
  · have hfalse : m.queued.state.moreFragments = false := hmore
    cases h
  · rcases htype with h' | h'
    · have hreq : m.queued.state.messageType = .request := h'
      rw [hreq] at h
      cases h
    · have hrep : m.queued.state.messageType = .reply := h'
      rw [hrep] at h
      cases h

theorem consolidateProcessMessage_queued (t : Incoming σ) (m : GiopMessage) :
    consolidateProcessMessage P t m.queued = some { t with processed := t.processed ++ [m.queued] } := by
  have hzero : m.queued.missingData = some 0 := rfl
  rw [consolidateProcessMessage, if_neg (not_not.mpr hzero), if_neg (not_fragment m), processParsedMessages_queued]

theorem consolidateEnqueueMessage_queued (t : Incoming σ) (m : GiopMessage) :
    consolidateEnqueueMessage P t m.queued =
      some { t with incomingMessageQueue := t.incomingMessageQueue ++ [m.queued] } := by
  have hzero : m.queued.missingData = some 0 := rfl
  rw [consolidateEnqueueMessage, if_neg (not_not.mpr hzero), if_neg (not_fragment m)]

/-! ## The buffer -/

/-- What the stack keeps of the next message: nothing, a part of its header, or more. -/
inductive Carried : List QueuedData → List UInt8 → List GiopMessage → Prop where
  | nothing (rest : List GiopMessage) : Carried [] [] rest
  | header {c : List UInt8} (rest : List GiopMessage) (hne : c ≠ []) (hlt : c.length < messageHeaderLen) :
      Carried [⟨c, none, freshState⟩] c rest
  | part {c : List UInt8} {m : GiopMessage} (rest : List GiopMessage) (hle : messageHeaderLen ≤ c.length)
      (hlt : c.length < m.bytes.length) : Carried [⟨c, some (m.bytes.length - c.length), m.state⟩] c (m :: rest)

/-- The messages behind the first one go to the queue; what is left of the next one goes to
the stack. -/
structure Extended (t : Incoming σ) (rest : List GiopMessage) (t' : Incoming σ) (done rest' : List GiopMessage)
    (c : List UInt8) : Prop where
  split : rest = done ++ rest'
  queue : t'.incomingMessageQueue = t.incomingMessageQueue ++ done.map GiopMessage.queued
  processed : t'.processed = t.processed
  partialMessage : t'.partialMessage = t.partialMessage
  input : t'.input = t.input
  bytes : c ++ t.input = bytesOf rest'
  carried : Carried t'.incomingMessageStack c rest'

theorem handleInputParseExtraMessages_nil (turns : Nat) (t : Incoming σ) :
    handleInputParseExtraMessages P turns t [] = some (t, []) := by
  cases turns <;> rfl

theorem handleInputParseExtraMessages_spec (turns : Nat) (hs : t.incomingMessageStack = [])
    (h : block ++ t.input = bytesOf rest) (hturns : block.length ≤ turns) :
    ∃ t' done rest' c, handleInputParseExtraMessages P turns t block = some (t', []) ∧
        Extended t rest t' done rest' c := by
  induction turns generalizing t block rest with
  | zero =>
    have hnil : block = [] := length_eq_zero_iff.mp (le_zero.mp hturns)
    subst hnil
    exact ⟨t, [], rest, [], rfl, rfl, (append_nil _).symm, rfl, rfl, rfl, h, hs ▸ .nothing rest⟩
  | succ turns ih =>
    by_cases hne : block = []
    · subst hne
      exact ⟨t, [], rest, [], rfl, rfl, (append_nil _).symm, rfl, rfl, rfl, h, hs ▸ .nothing rest⟩
    · obtain ⟨m, rest₁, rfl, hstarts⟩ := exists_first h hne
      rw [handleInputParseExtraMessages, if_neg hne, extractNextMessage_spec hstarts hne]
      unfold first
      by_cases hshort : block.length < messageHeaderLen
      · refine ⟨{ t with incomingMessageStack := [⟨block, none, freshState⟩] }, [], m :: rest₁, block, ?_, rfl,
          (append_nil _).symm, rfl, rfl, rfl, h, .header _ hne hshort⟩
        simp only [if_pos hshort, hs, reduceCtorEq, if_false, bind_some, handleInputParseExtraMessages_nil]
      · by_cases hpart : block.length < m.bytes.length
        · refine ⟨{ t with incomingMessageStack := [⟨block, some (m.bytes.length - block.length), m.state⟩] },
            [], m :: rest₁,
            block, ?_, rfl, (append_nil _).symm, rfl, rfl, rfl, h, .part _ (not_lt.mp hshort) hpart⟩
          have hmissing : ¬ some (m.bytes.length - block.length) = some 0 := by
            rw [some.injEq]
            omega
          simp only [if_neg hshort, if_pos hpart, hs, if_neg hmissing, bind_some, handleInputParseExtraMessages_nil]
        · obtain ⟨-, hrest⟩ := drop_first h (not_lt.mp hpart)
          have hheader := m.header_lt
          obtain ⟨t', done, rest', c, heq, he⟩ :=
            ih (t := { t with incomingMessageQueue := t.incomingMessageQueue ++ [m.queued] }) hs hrest (by
              rw [length_drop]
              omega)
          refine ⟨t', m :: done, rest', c, ?_, ?_⟩
          · have hzero : m.queued.missingData = some 0 := rfl
            simp only [if_neg hshort, if_neg hpart, hzero, if_true, consolidateEnqueueMessage_queued, bind_some]
            exact heq
          · refine ⟨by rw [he.split, cons_append], ?_, he.processed, he.partialMessage, he.input, he.bytes, he.carried⟩
            rw [he.queue, append_assoc, map_cons, singleton_append]

/-! ## One call -/

/-- The messages seen and those not seen yet, with the bytes of these that were received. -/
structure Buffered (messages : List GiopMessage) (t : Incoming σ) (done rest : List GiopMessage) (block : List UInt8) :
    Prop where
  split : messages = done ++ rest
  seen : t.processed ++ t.incomingMessageQueue = done.map GiopMessage.queued
  bytes : block ++ t.input = bytesOf rest

/-- Bytes are kept in front of the next buffer, or on the stack. -/
def Kept (t : Incoming σ) (c : List UInt8) (rest : List GiopMessage) : Prop :=
  (t.partialMessage = c ∧ t.incomingMessageStack = [] ∧ c.length < messageHeaderLen) ∨
    (t.partialMessage = [] ∧ Carried t.incomingMessageStack c rest)

def Inv (messages : List GiopMessage) (t : Incoming σ) : Prop :=
  ∃ done rest c, Buffered messages t done rest c ∧ Kept t c rest

/-- A call, or a part of it, goes on in a good state and leaves the connection to `recv`. -/
def Good (messages : List GiopMessage) (t : Incoming σ) (result : Option (Incoming σ)) : Prop :=
  ∃ t', result = some t' ∧ Inv messages t' ∧ t'.input = t.input

theorem Extended.inv {done' rest' : List GiopMessage} (he : Extended t rest t' done' rest' c)
    (hsplit : messages = done ++ rest)
    (hseen : t.processed ++ t.incomingMessageQueue = done.map GiopMessage.queued) (hp : t.partialMessage = []) :
    Inv messages t' := by
  refine ⟨done ++ done', rest', c, ⟨?_, ?_, ?_⟩, .inr ⟨he.partialMessage.trans hp, he.carried⟩⟩
  · rw [hsplit, he.split, append_assoc]
  · rw [he.processed, he.queue, ← append_assoc, hseen, map_append]
  · rw [he.input, he.bytes]

theorem processQueueHead_nil (h : t.incomingMessageQueue = []) : processQueueHead P t = some (false, t) := by
  unfold processQueueHead
  rw [h]

theorem processQueueHead_cons {qd : QueuedData} {q : List QueuedData} (hinv : Inv messages t)
    (h : t.incomingMessageQueue = qd :: q) :
    ∃ t', processQueueHead P t = some (true, t') ∧ Inv messages t' ∧ t'.input = t.input ∧
        t'.incomingMessageQueue = q := by
  obtain ⟨done, rest, c, hb, hk⟩ := hinv
  have hmem : qd ∈ done.map queued := by
    rw [← hb.seen, h]
    exact mem_append_right _ mem_cons_self
  obtain ⟨m, -, rfl⟩ := mem_map.mp hmem
  refine ⟨{ t with
    incomingMessageQueue := q
    processed := t.processed ++ [m.queued] }, ?_, ⟨done, rest, c, ⟨hb.split, ?_, hb.bytes⟩, hk⟩, rfl, rfl⟩
  · unfold processQueueHead
    rw [h]
    simp only [processParsedMessages_queued, map_some]
  · rw [← hb.seen, h, append_assoc, singleton_append]

theorem processQueueHead_good (hinv : Inv messages t) :
    Good messages t ((processQueueHead P t).bind fun (_, t) => t.keepPartialMessage []) := by
  cases hq : t.incomingMessageQueue with
  | nil =>
    rw [processQueueHead_nil hq]
    exact ⟨t, rfl, hinv, rfl⟩
  | cons qd q =>
    obtain ⟨t', heq, hinv', hinput, -⟩ := processQueueHead_cons (P := P) hinv hq
    rw [heq]
    exact ⟨t', rfl, hinv', hinput⟩

/-- A message whose header was cut is completed, or goes on. -/
theorem consolidateTop_good (P : InputParams σ) (t : Incoming σ) (block : List UInt8)
    (h : Buffered messages t done rest (c ++ block))
    (hp : t.partialMessage = []) (hlt : c.length < messageHeaderLen) (hne : block ≠ []) :
    Good messages t (t.consolidateTop P ⟨c, none, freshState⟩ [] block) := by
  have hne' : c ++ block ≠ [] := append_ne_nil_of_right_ne_nil _ hne
  obtain ⟨m, rest₁, rfl, hstarts⟩ := exists_first h.bytes hne'
  rw [consolidateTop, consolidateNode_spec hstarts hlt hne, bind_some]
  unfold first
  by_cases hshort : (c ++ block).length < messageHeaderLen
  · rw [if_pos hshort]
    have hinv : Inv messages { t with incomingMessageStack := [⟨c ++ block, none, freshState⟩] } :=
      ⟨done, m :: rest₁, c ++ block, ⟨h.split, h.seen, h.bytes⟩, .inr ⟨hp, .header _ hne' hshort⟩⟩
    exact processQueueHead_good hinv
  · rw [if_neg hshort]
    by_cases hpart : (c ++ block).length < m.bytes.length
    · have hmissing : ¬ some (m.bytes.length - (c ++ block).length) = some 0 := by
        rw [some.injEq]
        omega
      rw [if_pos hpart]
      simp only [if_neg hmissing, bind_some, handleInputParseExtraMessages_nil]
      have hinv : Inv messages
          { t with incomingMessageStack := [⟨c ++ block, some (m.bytes.length - (c ++ block).length), m.state⟩] } :=
        ⟨done, m :: rest₁, c ++ block, ⟨h.split, h.seen, h.bytes⟩, .inr ⟨hp, .part _ (not_lt.mp hshort) hpart⟩⟩
      exact processQueueHead_good hinv
    · have hzero : m.queued.missingData = some 0 := rfl
      rw [if_neg hpart]
      simp only [if_pos hzero, consolidateEnqueueMessage_queued, bind_some]
      obtain ⟨-, hrest⟩ := drop_first h.bytes (not_lt.mp hpart)
      obtain ⟨t', done', rest', c', heq, he⟩ := handleInputParseExtraMessages_spec (P := P)
        ((c ++ block).drop m.bytes.length).length
        (t := { t with
          incomingMessageStack := []
          incomingMessageQueue := t.incomingMessageQueue ++ [m.queued] }) rfl hrest (Nat.le_refl _)
      rw [heq, bind_some]
      have hsplit : messages = (done ++ [m]) ++ rest₁ := by rw [h.split, append_assoc, singleton_append]
      have hseen : t.processed ++ (t.incomingMessageQueue ++ [m.queued]) = (done ++ [m]).map queued := by
        rw [← append_assoc, h.seen, map_append, map_singleton]
      obtain ⟨t'', heq', hinv, hinput⟩ := processQueueHead_good (P := P) (he.inv hsplit hseen hp)
      exact ⟨t'', heq', hinv, hinput.trans he.input⟩

theorem processOnStack_good (P : InputParams σ) (t : Incoming σ) (block : List UInt8)
    (h : Buffered messages t done rest block)
    (hs : t.incomingMessageStack = []) (hp : t.partialMessage = []) (hq : t.incomingMessageQueue = [])
    (hne : block ≠ []) :
    Good messages t (t.processOnStack P block) := by
  obtain ⟨m, rest₁, rfl, hstarts⟩ := exists_first h.bytes hne
  obtain ⟨hparse, hparse'⟩ := parseNextMessage_spec P.host hstarts
  unfold processOnStack
  by_cases hshort : block.length < messageHeaderLen
  · rw [hparse hshort, bind_some]
    rw [keepPartialMessage, if_neg hne, if_pos (Nat.le_of_lt hshort)]
    exact ⟨_, rfl, ⟨done, m :: rest₁, block, ⟨h.split, h.seen, h.bytes⟩, .inl ⟨rfl, hs, hshort⟩⟩, rfl⟩
  · rw [hparse' (not_lt.mp hshort), bind_some]
    by_cases hpart : block.length < m.bytes.length
    · have hmissing : ¬ some (m.bytes.length - block.length) = some 0 := by
        rw [some.injEq]
        omega
      simp only [hmissing, false_and, if_false, ne_eq, reduceCtorEq, not_false_eq_true, if_true, hs]
      exact ⟨_, rfl, ⟨done, m :: rest₁, block, ⟨h.split, h.seen, h.bytes⟩,
        .inr ⟨hp, .part _ (not_lt.mp hshort) hpart⟩⟩, rfl⟩
    · have hle := not_lt.mp hpart
      have hzero : m.bytes.length - block.length = 0 := Nat.sub_eq_zero_of_le hle
      obtain ⟨htake, hrest⟩ := drop_first h.bytes hle
      have hfirst : (⟨block.take m.bytes.length, some 0, m.state⟩ : QueuedData) = m.queued := by
        rw [htake]
        rfl
      obtain ⟨t', done', rest', c', heq, he⟩ := handleInputParseExtraMessages_spec (P := P) block.length hs hrest (by
        rw [length_drop]
        exact sub_le _ _)
      have hfragment : ¬(m.state.moreFragments = true ∨ m.state.messageType = .fragment) := not_fragment m
      simp only [hzero, true_and, if_neg hpart, if_true, hfirst, heq, bind_some]
      rw [if_neg hfragment, processParsedMessages_queued]
      refine ⟨_, rfl,
          ⟨done ++ m :: done', rest', c', ⟨?_, ?_, ?_⟩, .inr ⟨he.partialMessage.trans hp, he.carried⟩⟩, he.input⟩
      · rw [h.split, he.split, append_assoc, cons_append]
      · have hseen := h.seen
        rw [hq, append_nil] at hseen
        rw [he.processed, he.queue, hq, hseen, nil_append, map_append, map_cons, append_assoc,
          singleton_append]
      · rw [← he.bytes, he.input]

variable {received : Option Nat} {r : Option (Incoming σ)}

theorem recv_cases {size : Nat} {bytes : List UInt8} (h : t.recv size received = some (bytes, t')) :
    (received = none ∧ bytes = [] ∧ t' = t) ∨
      ∃ n, received = some n ∧ 0 < n ∧ n ≤ size ∧ n ≤ t.input.length ∧ bytes = t.input.take n ∧
        t' = { t with input := t.input.drop n } := by
  cases received with
  | none =>
    simp only [recv, some.injEq, Prod.mk.injEq] at h
    exact .inl ⟨rfl, h.1.symm, h.2.symm⟩
  | some n =>
    simp only [recv] at h
    split at h
    · next hn =>
      simp only [some.injEq, Prod.mk.injEq] at h
      exact .inr ⟨n, rfl, hn.1, hn.2.1, hn.2.2, h.1.symm, h.2.symm⟩
    · cases h

theorem recv_some {size n : Nat} (hn : 0 < n) (hsize : n ≤ size) (hinput : n ≤ t.input.length) :
    t.recv size (some n) = some (t.input.take n, { t with input := t.input.drop n }) := by
  rw [recv, if_pos ⟨hn, hsize, hinput⟩]

theorem take_ne_nil {input : List UInt8} {n : Nat} (hn : 0 < n) (hle : n ≤ input.length) : input.take n ≠ [] := by
  intro hnil
  have hlen := congrArg length hnil
  rw [length_take, length_nil] at hlen
  omega

def Called (messages : List GiopMessage) (t : Incoming σ) (received : Option Nat)
    (result : Option (Incoming σ)) : Prop :=
  ∃ t', result = some t' ∧ Inv messages t' ∧ t'.input = t.input.drop (received.getD 0)

theorem handleInputMissingData_called (h : Buffered messages t done (m :: rest) c)
    (hs : t.incomingMessageStack = [⟨c, some (m.bytes.length - c.length), m.state⟩])
    (hp : t.partialMessage = []) (hq : t.incomingMessageQueue = [])
    (hle : messageHeaderLen ≤ c.length) (hlt : c.length < m.bytes.length)
    (heq : t.handleInputMissingData P ⟨c, some (m.bytes.length - c.length), m.state⟩ []
        (m.bytes.length - c.length) received =
      some r) : Called messages t received r := by
  simp only [handleInputMissingData, map_eq_some_iff, Prod.exists] at heq
  obtain ⟨bytes, t', hrecv, rfl⟩ := heq
  obtain ⟨rfl, rfl, rfl⟩ | ⟨n, rfl, hn, hsize, hinput, rfl, rfl⟩ := recv_cases hrecv
  · rw [if_pos rfl]
    exact ⟨t', rfl, ⟨done, m :: rest, c, h, .inr ⟨hp, hs ▸ .part rest hle hlt⟩⟩, rfl⟩
  · have hlen : (t.input.take n).length = n := by
      rw [length_take]
      omega
    have hbytes : (c ++ t.input.take n) ++ t.input.drop n = bytesOf (m :: rest) := by
      rw [append_assoc, take_append_drop, h.bytes]
    rw [if_neg (take_ne_nil hn hinput), hlen]
    by_cases hall : m.bytes.length - c.length - n = 0
    · have hclen : (c ++ t.input.take n).length = m.bytes.length := by
        rw [length_append, hlen]
        omega
      obtain ⟨hwhole, hrest⟩ := drop_first hbytes (Nat.le_of_eq hclen.symm)
      have htake : c ++ t.input.take n = m.bytes := by
        rwa [← hclen, take_length] at hwhole
      have hqueued : (⟨c ++ t.input.take n, some 0, m.state⟩ : QueuedData) = m.queued := by
        rw [htake]
        rfl
      have hdrop : t.input.drop n = bytesOf rest := by
        rwa [← hclen, drop_length, nil_append] at hrest
      rw [if_pos hall, hall, hqueued, consolidateProcessMessage_queued]
      refine ⟨_, rfl, ⟨done ++ [m], rest, [], ⟨?_, ?_, hdrop⟩, .inr ⟨hp, .nothing rest⟩⟩, rfl⟩
      · rw [h.split, append_assoc, singleton_append]
      · have hseen := h.seen
        rw [hq, append_nil] at hseen
        rw [hq, append_nil, hseen, map_append, map_singleton]
    · have hmissing : m.bytes.length - c.length - n = m.bytes.length - (c ++ t.input.take n).length := by
        rw [length_append, hlen]
        omega
      rw [if_neg hall, hmissing]
      refine ⟨_, rfl, ⟨done, m :: rest, c ++ t.input.take n, ⟨h.split, h.seen, hbytes⟩, .inr ⟨hp, ?_⟩⟩, rfl⟩
      refine .part rest ?_ ?_
      · rw [length_append]
        omega
      · rw [length_append, hlen]
        omega

theorem header_le_space : messageHeaderLen ≤ P.space := by
  unfold InputParams.space taoMaxBufSize messageHeaderLen
  omega

theorem lt_recvSize (hk : Kept t c rest) : t.partialMessage.length < t.recvSize P := by
  have hspace := header_le_space (P := P)
  unfold recvSize
  rcases hk with ⟨rfl, hs, hlt⟩ | ⟨hp, hc⟩
  · rw [hs]
    split <;> omega
  · rw [hp, length_nil]
    generalize t.incomingMessageStack = stack at hc
    have hpos : 0 < messageHeaderLen := by decide
    cases hc with
    | nothing => split <;> omega
    | header _ _ hlt =>
      split
      · omega
      · exact Nat.sub_pos_of_lt hlt
    | part => split <;> omega

theorem parseData_sizes (hk : Kept t c rest) : ¬(P.space < messageHeaderLen ∨ t.recvSize P < t.partialMessage.length ∨
    t.recvSize P - t.partialMessage.length = 0) := by
  have hspace := header_le_space (P := P)
  have hlt := lt_recvSize (P := P) hk
  omega

theorem handleInputParseData_fresh (h : Buffered messages t done rest c) (hp : t.partialMessage = c)
    (hs : t.incomingMessageStack = []) (hlt : c.length < messageHeaderLen)
    (hq : t.incomingMessageQueue = []) (heq : t.handleInputParseData P received = some r) :
    Called messages t received r := by
  have hk : Kept t c rest := .inl ⟨hp, hs, hlt⟩
  simp only [handleInputParseData, if_neg (parseData_sizes hk), map_eq_some_iff, Prod.exists] at heq
  obtain ⟨bytes, t', hrecv, rfl⟩ := heq
  obtain ⟨rfl, rfl, rfl⟩ | ⟨n, rfl, hn, hsize, hinput, rfl, rfl⟩ := recv_cases hrecv
  · rw [if_pos rfl]
    exact ⟨t', rfl, ⟨done, rest, c, h, hk⟩, rfl⟩
  · rw [if_neg (take_ne_nil hn hinput)]
    have hbytes : (c ++ t.input.take n) ++ t.input.drop n = bytesOf rest := by
      rw [append_assoc, take_append_drop, h.bytes]
    have hgood := processOnStack_good P { t with
      partialMessage := []
      input := t.input.drop n } (c ++ t.input.take n) ⟨h.split, h.seen, hbytes⟩ hs rfl hq
      (append_ne_nil_of_right_ne_nil _ (take_ne_nil hn hinput))
    simp only [hs, hp]
    rw [hs] at hgood
    exact hgood

theorem handleInputParseData_header (h : Buffered messages t done rest c)
    (hp : t.partialMessage = []) (hs : t.incomingMessageStack = [⟨c, none, freshState⟩])
    (hne : c ≠ []) (hlt : c.length < messageHeaderLen)
    (heq : t.handleInputParseData P received = some r) : Called messages t received r := by
  have hk : Kept t c rest := .inr ⟨hp, hs ▸ .header rest hne hlt⟩
  simp only [handleInputParseData, if_neg (parseData_sizes hk), map_eq_some_iff, Prod.exists] at heq
  obtain ⟨bytes, t', hrecv, rfl⟩ := heq
  obtain ⟨rfl, rfl, rfl⟩ | ⟨n, rfl, hn, hsize, hinput, rfl, rfl⟩ := recv_cases hrecv
  · rw [if_pos rfl]
    exact ⟨t', rfl, ⟨done, rest, c, h, hk⟩, rfl⟩
  · rw [if_neg (take_ne_nil hn hinput)]
    have hbytes : (c ++ t.input.take n) ++ t.input.drop n = bytesOf rest := by
      rw [append_assoc, take_append_drop, h.bytes]
    have hgood := consolidateTop_good P { t with
      partialMessage := []
      input := t.input.drop n } (t.input.take n) ⟨h.split, h.seen, hbytes⟩ rfl hlt (take_ne_nil hn hinput)
    simp only [hs, hp, nil_append]
    exact hgood

/-- **Call lemma.** From a good state no call fails, and it leaves a good state. -/
theorem handleInput_called (hinv : Inv messages t) (heq : t.handleInput P received = some r) :
    Called messages t received r := by
  cases hq : t.incomingMessageQueue with
  | cons qd q =>
    obtain ⟨t', hhead, hinv', hinput, -⟩ := processQueueHead_cons (P := P) hinv hq
    simp only [handleInput, hhead] at heq
    split at heq
    · next hnone =>
      cases heq
      subst hnone
      exact ⟨t', rfl, hinv', hinput⟩
    · cases heq
  | nil =>
    simp only [handleInput, processQueueHead_nil hq] at heq
    obtain ⟨done, rest, c, hb, hk⟩ := hinv
    rcases hk with ⟨hp, hs, hlt⟩ | ⟨hp, hc⟩
    · simp only [hs] at heq
      exact handleInputParseData_fresh hb hp hs hlt hq heq
    · generalize hs : t.incomingMessageStack = stack at hc heq
      cases hc with
      | nothing => exact handleInputParseData_fresh hb hp hs (by decide) hq heq
      | header _ hne hlt => exact handleInputParseData_header hb hp hs hne hlt heq
      | part _ hle hlt => exact handleInputMissingData_called hb hs hp hq hle hlt heq

/-- While there is something left, a call goes on: it takes the head of the queue, or what `recv`
returns. -/
theorem exists_call (hinv : Inv messages t) (hleft : t.input ≠ [] ∨ t.incomingMessageQueue ≠ []) :
    ∃ received t', step P t received = some t' ∧ (t'.input.length < t.input.length ∨
        t'.input = t.input ∧ t'.incomingMessageQueue.length < t.incomingMessageQueue.length) := by
  cases hq : t.incomingMessageQueue with
  | cons qd q =>
    obtain ⟨t', hhead, -, hinput, htail⟩ := processQueueHead_cons (P := P) hinv hq
    refine ⟨none, t', ?_, .inr ⟨hinput, ?_⟩⟩
    · simp only [step, handleInput, hhead, if_true, join_some]
    · rw [htail]
      exact lt_succ_self _
  | nil =>
    have hne : t.input ≠ [] := hleft.resolve_right (not_not.mpr hq)
    have hpos : 1 ≤ t.input.length := length_pos_iff.mpr hne
    have hcall : ∃ r, t.handleInput P (some 1) = some r := by
      obtain ⟨done, rest, c, hb, hk⟩ := hinv
      have hdata : ∃ r, t.handleInputParseData P (some 1) = some r := by
        have hlt := lt_recvSize (P := P) hk
        rw [handleInputParseData, if_neg (parseData_sizes hk), recv_some Nat.one_pos (by omega) hpos]
        exact ⟨_, rfl⟩
      simp only [handleInput, processQueueHead_nil hq]
      rcases hk with ⟨hp, hs, hlt⟩ | ⟨hp, hc⟩
      · simp only [hs]
        exact hdata
      · generalize hs : t.incomingMessageStack = stack at hc
        cases hc with
        | nothing => exact hdata
        | header => exact hdata
        | part _ hle hlt =>
          simp only [handleInputMissingData, recv_some Nat.one_pos (Nat.sub_pos_of_lt hlt) hpos]
          exact ⟨_, rfl⟩
    obtain ⟨r, hr⟩ := hcall
    obtain ⟨t', rfl, -, hinput⟩ := handleInput_called hinv hr
    refine ⟨some 1, t', ?_, .inl ?_⟩
    · rw [step, hr, join_some]
    · rw [hinput, length_drop, getD_some]
      omega

/-! ## Runs -/

theorem inv_start (fragments : σ) (messages : List GiopMessage) : Inv messages (start fragments (bytesOf messages)) :=
  ⟨[], messages, [], ⟨rfl, rfl, rfl⟩, .inr ⟨rfl, .nothing messages⟩⟩

theorem inv_step (hinv : Inv messages t) (h : step P t received = some t') : Inv messages t' := by
  obtain ⟨r, hr, hr'⟩ : ∃ r, t.handleInput P received = some r ∧ r = some t' := by
    rw [step, join_eq_some_iff] at h
    exact ⟨_, h, rfl⟩
  obtain ⟨t₁, rfl, hinv', -⟩ := handleInput_called hinv hr
  cases hr'
  exact hinv'

/-- **Message framing.** However the bytes of the messages arrive, no call fails; what was
processed are the first messages, each whole and once, and all of them when nothing is left.
While something is left, a call goes on. -/
theorem framing (P : InputParams σ) (fragments : σ) (messages : List GiopMessage) {results : List (Option Nat)}
    (h : run (step P) (start fragments (bytesOf messages)) results = some t) :
    (∀ received r, t.handleInput P received = some r → ∃ t', r = some t') ∧
    t.processed <+: messages.map GiopMessage.queued ∧
    (t.input = [] → t.incomingMessageQueue = [] → t.processed = messages.map GiopMessage.queued) ∧
    (t.input ≠ [] ∨ t.incomingMessageQueue ≠ [] →
      ∃ received t', step P t received = some t' ∧
        (t'.input.length < t.input.length ∨
          t'.input = t.input ∧ t'.incomingMessageQueue.length < t.incomingMessageQueue.length)) := by
  have hinv : Inv messages t := run_inv (fun _ _ _ hs hstep => inv_step hs hstep) (inv_start fragments messages) h
  refine ⟨?_, ?_, ?_, exists_call hinv⟩
  · intro received r hr
    obtain ⟨t', rfl, -, -⟩ := handleInput_called hinv hr
    exact ⟨t', rfl⟩
  · obtain ⟨done, rest, c, hb, -⟩ := hinv
    have hseen : t.processed <+: done.map queued := ⟨t.incomingMessageQueue, hb.seen⟩
    rw [hb.split, map_append]
    exact hseen.trans (prefix_append _ _)
  · intro hinput hq
    obtain ⟨done, rest, c, hb, hk⟩ := hinv
    have hbytes := hb.bytes
    rw [hinput, append_nil] at hbytes
    have hrest : rest = [] := by
      cases rest with
      | nil => rfl
      | cons m rest =>
        rw [bytesOf_cons] at hbytes
        have hheader := m.header_lt
        have hlen := congrArg length hbytes
        rw [length_append] at hlen
        rcases hk with ⟨-, -, hlt⟩ | ⟨-, hc⟩
        · omega
        · generalize t.incomingMessageStack = stack at hc
          cases hc with
          | nothing =>
            rw [length_nil] at hlen
            omega
          | header _ _ hlt => omega
          | part _ _ hlt => omega
    have hseen := hb.seen
    rw [hq, append_nil] at hseen
    rw [hseen, hb.split, hrest, append_nil]

/-- Without fragments, and with the single read optimization. -/
def plain : InputParams Unit where
  host := .little
  singleReadOptimization := true
  skipped := ⟨0, by decide⟩
  consolidateFragmentedMessage := fun s _ => (s, .error)
  discardFragmentedMessage := fun s _ => s

def sampleMessages : List GiopMessage :=
  [⟨2, 1, false, [1, 2, 3, 4], by decide, by decide, by decide, by decide⟩,
    ⟨0, 0, true, [9], by decide, by decide, by decide, by decide⟩]

/-- Both headers are cut. -/
def sampleResults : List (Option Nat) := [some 5, none, some 20, none, some 4]

theorem framing_sample : ∃ t, run (step plain) (start () (bytesOf sampleMessages)) sampleResults = some t ∧
    t.processed = sampleMessages.map GiopMessage.queued := by
  obtain ⟨t, h, hinput, hqueue⟩ : ∃ t, run (step plain) (start () (bytesOf sampleMessages)) sampleResults = some t ∧
      t.input = [] ∧ t.incomingMessageQueue = [] := ⟨_, rfl, rfl, rfl⟩
  exact ⟨t, h, (framing plain () sampleMessages h).2.2.1 hinput hqueue⟩

end Incoming

end Atcd.Orb
