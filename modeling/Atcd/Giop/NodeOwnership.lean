import Atcd.Giop.Fragments
import Atcd.Giop.Framing
/-!
# Who owns the nodes of a fragmented message

`consolidate_fragmented_message` takes nodes off the stack, hangs the message block of one on the
chain of another, and puts the rest back. Each node has a number here, and the call says what has
become of it. The second stack is a variable of the function, and its destructor releases what is
left on it.

Results:
* `owned_iff`: every node is on the stack, returned, in the chain of what is returned, or
  released, exactly if a last part and the parts that are compared with it have request ids.
-/
namespace Atcd.Giop

open Atcd.Core Atcd.Cdr List
open Framing (checkRevision)

/-- A `TAO_Queued_Data`. -/
structure Node where
  id : Nat
  data : QueuedData
  deriving DecidableEq

/-- A node with those whose message blocks hang on its own. -/
structure NodeChain where
  node : Node
  absorbed : List Nat

/-- What has become of the nodes. -/
structure Fates where
  stack : List Node
  msg : Option Nat
  absorbed : List Nat
  released : List Nat
  deriving DecidableEq

/-- The nodes that somebody has, or that are released. -/
def Fates.owned (f : Fates) : List Nat :=
  f.stack.map Node.id ++ (f.msg.toList ++ (f.absorbed ++ f.released))

def Owned (nodes : List Node) (f : Fates) : Prop := f.owned.Perm (nodes.map Node.id)

/-- The block of `tail` is hung on that of `head`, and the node of `tail` is released. -/
def NodeChain.join (headerAdjustment : Nat) (head : Node) (tail : NodeChain) : NodeChain where
  node := ⟨head.id, Giop.join headerAdjustment head.data tail.node.data⟩
  absorbed := tail.node.id :: tail.absorbed

/-- mirrors TAO/tao/GIOP_Message_Base.cpp:1874-1899 -/
def gatherGiop11Nodes (headerAdjustment : Nat) :
    List Node → NodeChain → List Node → NodeChain × List Node
  | [], tail, reverseStack => (tail, reverseStack)
  | head :: stack, tail, reverseStack =>
    if head.data.state.moreFragments = true ∧ head.data.state.giopVersion = ⟨1, 1⟩ ∧
        head.data.msgBlock.length ≥ headerAdjustment then
      gatherGiop11Nodes headerAdjustment stack (tail.join headerAdjustment head) reverseStack
    else gatherGiop11Nodes headerAdjustment stack tail (head :: reverseStack)

/-- The part is compared with the request id of the last part. -/
def Compared (headerAdjustment : Nat) (head : QueuedData) : Prop :=
  head.state.moreFragments = true ∧ head.state.giopVersion.major ≥ 1 ∧
    head.state.giopVersion.minor ≥ 2 ∧ head.msgBlock.length ≥ headerAdjustment

instance (headerAdjustment : Nat) (head : QueuedData) :
    Decidable (Compared headerAdjustment head) := inferInstanceAs (Decidable (_ ∧ _ ∧ _ ∧ _))

section Calls

variable (P : Platform)

/-- Where a part has no request id: that part, the stack below it, and the second stack.
mirrors GIOP_Message_Base.cpp:1911-1946 -/
def gatherNodes (headerAdjustment : Nat) (requestId : UInt32) :
    List Node → NodeChain → List Node →
      Except (Node × List Node × List Node) (NodeChain × List Node)
  | [], tail, reverseStack => .ok (tail, reverseStack)
  | head :: stack, tail, reverseStack =>
    if Compared headerAdjustment head.data then
      match head.data.parseRequestId P with
      | none => .error (head, stack, reverseStack)
      | some headRequestId =>
        if requestId = headRequestId then
          gatherNodes headerAdjustment requestId stack (tail.join headerAdjustment head)
            reverseStack
        else gatherNodes headerAdjustment requestId stack tail (head :: reverseStack)
    else gatherNodes headerAdjustment requestId stack tail (head :: reverseStack)

/-- The stack is restored, and the chain consolidated if there is memory for it.
mirrors GIOP_Message_Base.cpp:1948-1965 -/
def finishNodes (memory : Bool) (tail : NodeChain) (reverseStack : List Node) : Int × Fates :=
  let stack := reverseStack.foldl (fun stack head => head :: stack) []
  if memory = false ∧ tail.node.data.state.moreFragments = true ∧ tail.node.data.cont ≠ [] then
    (-1, ⟨stack, none, [], tail.node.id :: tail.absorbed⟩)
  else (0, ⟨stack, some tail.node.id, tail.absorbed, []⟩)

/-- The result and the nodes; none where an exception is thrown.
mirrors GIOP_Message_Base.cpp:1821-1966 -/
def consolidateNodes (memory : Bool) (stack : List Node) (qd : Node) : Option (Int × Fates) :=
  if qd.data.state.giopVersion = ⟨1, 0⟩ then some (-1, ⟨stack, none, [], [qd.id]⟩)
  else if qd.data.state.moreFragments = true then some (1, ⟨qd :: stack, none, [], []⟩)
  else
    match fragmentHeaderLength ⟨qd.data.state.giopVersion.major, 2⟩ with
    | none => none
    | some fragmentHeader =>
      let headerAdjustment := messageHeaderLen + fragmentHeader
      if qd.data.msgBlock.length < headerAdjustment then some (-1, ⟨stack, none, [], [qd.id]⟩)
      else if qd.data.state.giopVersion = ⟨1, 1⟩ then
        let (tail, reverseStack) := gatherGiop11Nodes headerAdjustment stack ⟨qd, []⟩ []
        some (finishNodes memory tail reverseStack)
      else
        match qd.data.parseRequestId P with
        -- nothing is released
        | none => some (-1, ⟨stack, none, [], []⟩)
        | some requestId =>
          match gatherNodes P headerAdjustment requestId stack ⟨qd, []⟩ [] with
          -- `head`, and by its destructor the second stack
          | .error (head, stack, reverseStack) =>
            some (-1, ⟨stack, none, [], head.id :: reverseStack.map Node.id⟩)
          | .ok (tail, reverseStack) => some (finishNodes memory tail reverseStack)

end Calls

/-- Where request ids are compared, the parts have them. -/
def Identified (P : Platform) (stack : List Node) (qd : Node) : Prop :=
  qd.data.state.moreFragments = false → qd.data.state.giopVersion = ⟨1, 2⟩ →
    messageHeaderLen + messageFragmentHeader ≤ qd.data.msgBlock.length →
      (qd.data.parseRequestId P).isSome ∧
        ∀ head ∈ stack, Compared (messageHeaderLen + messageFragmentHeader) head.data →
          (head.data.parseRequestId P).isSome

/-! ## Loops -/

variable {P : Platform}

def inHands (tail : NodeChain) (stack reverseStack : List Node) : List Nat :=
  tail.node.id :: (tail.absorbed ++ (stack.map Node.id ++ reverseStack.map Node.id))

theorem inHands_join (n : Nat) (head : Node) (tail : NodeChain) (stack reverseStack : List Node) :
    (inHands (tail.join n head) stack reverseStack).Perm
      (inHands tail (head :: stack) reverseStack) := by
  refine (Perm.swap _ _ _).trans (Perm.cons _ ?_)
  exact perm_middle.symm

theorem inHands_aside (head : Node) (tail : NodeChain) (stack reverseStack : List Node) :
    (inHands tail stack (head :: reverseStack)).Perm
      (inHands tail (head :: stack) reverseStack) := by
  exact Perm.cons _ (Perm.append_left _ perm_middle)

/-- **The loop for GIOP 1.1** keeps all nodes. -/
theorem gatherGiop11Nodes_perm (n : Nat) (stack : List Node) (tail : NodeChain)
    (reverseStack : List Node) : (inHands (gatherGiop11Nodes n stack tail reverseStack).1 []
      (gatherGiop11Nodes n stack tail reverseStack).2).Perm (inHands tail stack reverseStack) := by
  induction stack generalizing tail reverseStack with
  | nil => exact .refl _
  | cons head stack ih =>
    unfold gatherGiop11Nodes
    split
    · exact (ih _ _).trans (inHands_join n head tail stack reverseStack)
    · exact (ih _ _).trans (inHands_aside head tail stack reverseStack)

/-- All nodes are kept, or a part has no request id and the last part is in nobody's hands. -/
def Gathers (P : Platform) (n : Nat) (requestId : UInt32) (stack : List Node) (tail : NodeChain)
    (reverseStack : List Node) : Prop :=
  (∃ tail' reverse', gatherNodes P n requestId stack tail reverseStack = .ok (tail', reverse') ∧
    (inHands tail' [] reverse').Perm (inHands tail stack reverseStack) ∧
    ∀ head ∈ stack, Compared n head.data → (head.data.parseRequestId P).isSome) ∨
  ∃ bad rest reverse', gatherNodes P n requestId stack tail reverseStack =
      .error (bad, rest, reverse') ∧
    rest.length + 1 + reverse'.length ≤ stack.length + reverseStack.length ∧
    ∃ head ∈ stack, Compared n head.data ∧ head.data.parseRequestId P = none

/-- A turn that goes on. -/
theorem Gathers.next {n : Nat} {requestId : UInt32} {head : Node}
    {stack reverseStack reverse₁ : List Node} {tail tail₁ : NodeChain}
    (h : Gathers P n requestId stack tail₁ reverse₁)
    (hlen : reverse₁.length ≤ reverseStack.length + 1)
    (hperm : (inHands tail₁ stack reverse₁).Perm (inHands tail (head :: stack) reverseStack))
    (hhead : Compared n head.data → (head.data.parseRequestId P).isSome)
    (heq : gatherNodes P n requestId (head :: stack) tail reverseStack =
      gatherNodes P n requestId stack tail₁ reverse₁) :
    Gathers P n requestId (head :: stack) tail reverseStack := by
  unfold Gathers
  rw [heq]
  rcases h with ⟨tail', reverse', hok, hperm', hall⟩ |
    ⟨bad, rest, reverse', herror, hle, h, hmem, hbad⟩
  · refine .inl ⟨tail', reverse', hok, hperm'.trans hperm, ?_⟩
    exact forall_mem_cons.mpr ⟨hhead, hall⟩
  · refine .inr ⟨bad, rest, reverse', herror, ?_, h, mem_cons_of_mem _ hmem, hbad⟩
    rw [length_cons]
    omega

/-- **The loop from GIOP 1.2 on.** -/
theorem gatherNodes_cases (P : Platform) (n : Nat) (requestId : UInt32) (stack : List Node)
    (tail : NodeChain) (reverseStack : List Node) :
    Gathers P n requestId stack tail reverseStack := by
  induction stack generalizing tail reverseStack with
  | nil => exact .inl ⟨tail, reverseStack, rfl, .refl _, fun h hh => absurd hh not_mem_nil⟩
  | cons head stack ih =>
    by_cases hcompared : Compared n head.data
    · cases hparse : head.data.parseRequestId P with
      | none =>
        refine .inr ⟨head, stack, reverseStack, ?_, ?_, head, mem_cons_self, hcompared, hparse⟩
        · unfold gatherNodes
          rw [if_pos hcompared, hparse]
        · rw [length_cons]
      | some headRequestId =>
        have hsome : Compared n head.data → (head.data.parseRequestId P).isSome := fun _ => by
          rw [hparse]
          rfl
        by_cases hid : requestId = headRequestId
        · refine (ih (tail.join n head) reverseStack).next (Nat.le_succ _)
            (inHands_join n head tail stack reverseStack) hsome ?_
          rw [gatherNodes, if_pos hcompared, hparse]
          exact if_pos hid
        · refine (ih tail (head :: reverseStack)).next (Nat.le_refl _)
            (inHands_aside head tail stack reverseStack) hsome ?_
          rw [gatherNodes, if_pos hcompared, hparse]
          exact if_neg hid
    · refine (ih tail (head :: reverseStack)).next (Nat.le_refl _)
        (inHands_aside head tail stack reverseStack) (fun hc => absurd hc hcompared) ?_
      rw [gatherNodes, if_neg hcompared]

/-! ## The call -/

/-- What the end of the call does with the nodes in its hands. -/
theorem finishNodes_owned (memory : Bool) {tail : NodeChain} {stack reverseStack : List Node}
    {qd : Node} (h : (inHands tail [] reverseStack).Perm (inHands ⟨qd, []⟩ stack [])) :
    Owned (qd :: stack) (finishNodes memory tail reverseStack).2 := by
  have hnodes : inHands ⟨qd, []⟩ stack [] = (qd :: stack).map Node.id := by
    unfold inHands
    simp
  have hrestored : reverseStack.foldl (fun stack head => head :: stack) [] =
      reverseStack.reverse := by
    simp
  rw [hnodes] at h
  unfold Owned finishNodes Fates.owned
  rw [hrestored]
  refine Perm.trans ?_ h
  have hstack : (reverseStack.reverse.map Node.id).Perm (reverseStack.map Node.id) :=
    (reverse_perm reverseStack).map Node.id
  split
  · simp only [Option.toList_none, nil_append]
    refine (hstack.append_right _).trans ?_
    exact perm_append_comm
  · simp only [Option.toList_some, append_nil]
    refine (hstack.append_right _).trans ?_
    exact perm_append_comm

theorem not_owned_of_length {nodes : List Node} {f : Fates} (h : f.owned.length < nodes.length) :
    ¬Owned nodes f := by
  intro howned
  have hlen := howned.length_eq
  rw [length_map] at hlen
  omega

theorem version_cases {version : MessageVersion}
    (h : checkRevision version.major version.minor = true) :
    version = ⟨1, 0⟩ ∨ version = ⟨1, 1⟩ ∨ version = ⟨1, 2⟩ := by
  cases version
  simp only [checkRevision, Bool.and_eq_true, Bool.or_eq_true, decide_eq_true_eq] at h
  simp only [MessageVersion.mk.injEq]
  obtain ⟨hmajor, hminor⟩ := h
  rcases hminor with (hminor | hminor) | hminor
  · exact .inl ⟨hmajor, hminor⟩
  · exact .inr (.inl ⟨hmajor, hminor⟩)
  · exact .inr (.inr ⟨hmajor, hminor⟩)

theorem owned_released (stack : List Node) (qd : Node) :
    Owned (qd :: stack) ⟨stack, none, [], [qd.id]⟩ := by
  exact perm_append_comm

theorem owned_pushed (stack : List Node) (qd : Node) :
    Owned (qd :: stack) ⟨qd :: stack, none, [], []⟩ := by
  unfold Owned Fates.owned
  simp

theorem consolidateNodes_last (P : Platform) (memory : Bool) (stack : List Node) {qd : Node}
    (hversion : qd.data.state.giopVersion = ⟨1, 2⟩) (hlast : qd.data.state.moreFragments = false)
    (hlong : messageHeaderLen + messageFragmentHeader ≤ qd.data.msgBlock.length) :
    ∃ result f, consolidateNodes P memory stack qd = some (result, f) ∧
      (Owned (qd :: stack) f ↔ Identified P stack qd) := by
  have h10 : (⟨1, 2⟩ : MessageVersion) ≠ ⟨1, 0⟩ := by decide
  have h11 : (⟨1, 2⟩ : MessageVersion) ≠ ⟨1, 1⟩ := by decide
  have hheader : fragmentHeaderLength ⟨1, 2⟩ = some messageFragmentHeader := rfl
  unfold consolidateNodes
  simp only [hversion, if_neg h10, hlast, Bool.false_eq_true, if_false, hheader,
    if_neg (Nat.not_lt.mpr hlong), if_neg h11]
  cases hparse : qd.data.parseRequestId P with
  | none =>
    refine ⟨_, _, rfl, iff_of_false (not_owned_of_length ?_) fun hid => ?_⟩
    · simp [Fates.owned]
    · have hsome := (hid hlast hversion hlong).1
      rw [hparse] at hsome
      cases hsome
  | some requestId =>
    dsimp only
    rcases gatherNodes_cases P (messageHeaderLen + messageFragmentHeader) requestId stack
        ⟨qd, []⟩ [] with ⟨tail, reverseStack, hok, hperm, hall⟩ |
      ⟨bad, rest, reverseStack, herror, hle, head, hmem, hc, hbad⟩
    · rw [hok]
      refine ⟨_, _, rfl, iff_of_true (finishNodes_owned memory hperm) fun _ _ _ => ⟨?_, hall⟩⟩
      rw [hparse]
      rfl
    · rw [herror]
      refine ⟨_, _, rfl, iff_of_false (not_owned_of_length ?_) fun hid => ?_⟩
      · rw [length_nil] at hle
        simp [Fates.owned]
        omega
      · have hsome := (hid hlast hversion hlong).2 head hmem hc
        rw [hbad] at hsome
        cases hsome

/-- **No node is lost** by a call, on its error returns or on success, exactly if request ids can
be read wherever they are compared. -/
theorem owned_iff (P : Platform) (memory : Bool) (stack : List Node) {qd : Node}
    (h : checkRevision qd.data.state.giopVersion.major qd.data.state.giopVersion.minor = true) :
    ∃ result f, consolidateNodes P memory stack qd = some (result, f) ∧
      (Owned (qd :: stack) f ↔ Identified P stack qd) := by
  have hidentified : qd.data.state.giopVersion ≠ ⟨1, 2⟩ → Identified P stack qd :=
    fun hne _ hversion => absurd hversion hne
  rcases version_cases h with hversion | hversion | hversion
  · refine ⟨-1, ⟨stack, none, [], [qd.id]⟩, if_pos hversion, ?_⟩
    refine iff_of_true (owned_released stack qd) (hidentified ?_)
    rw [hversion]
    decide
  · have hne : qd.data.state.giopVersion ≠ ⟨1, 2⟩ := by
      rw [hversion]
      decide
    have h10 : (⟨1, 1⟩ : MessageVersion) ≠ ⟨1, 0⟩ := by decide
    have hheader : fragmentHeaderLength ⟨1, 2⟩ = some messageFragmentHeader := rfl
    unfold consolidateNodes
    simp only [hversion, if_neg h10]
    cases hmore : qd.data.state.moreFragments with
    | true => exact ⟨_, _, rfl, iff_of_true (owned_pushed stack qd) (hidentified hne)⟩
    | false =>
      simp only [Bool.false_eq_true, if_false, hheader]
      by_cases hshort : qd.data.msgBlock.length < messageHeaderLen + messageFragmentHeader
      · rw [if_pos hshort]
        exact ⟨_, _, rfl, iff_of_true (owned_released stack qd) (hidentified hne)⟩
      · rw [if_neg hshort, if_pos trivial]
        have hperm := gatherGiop11Nodes_perm (messageHeaderLen + messageFragmentHeader) stack
          ⟨qd, []⟩ []
        exact ⟨_, _, rfl, iff_of_true (finishNodes_owned memory hperm) (hidentified hne)⟩
  · have h10 : (⟨1, 2⟩ : MessageVersion) ≠ ⟨1, 0⟩ := by decide
    by_cases hlast : qd.data.state.moreFragments = false
    · by_cases hlong : messageHeaderLen + messageFragmentHeader ≤ qd.data.msgBlock.length
      · exact consolidateNodes_last P memory stack hversion hlast hlong
      · have hheader : fragmentHeaderLength ⟨1, 2⟩ = some messageFragmentHeader := rfl
        refine ⟨-1, ⟨stack, none, [], [qd.id]⟩, ?_, iff_of_true (owned_released stack qd) ?_⟩
        · unfold consolidateNodes
          simp only [hversion, if_neg h10, hlast, Bool.false_eq_true, if_false, hheader,
            if_pos (Nat.not_le.mp hlong)]
        · exact fun _ _ hle => absurd hle hlong
    · refine ⟨1, ⟨qd :: stack, none, [], []⟩, ?_, iff_of_true (owned_pushed stack qd) ?_⟩
      · unfold consolidateNodes
        rw [if_neg (by rw [hversion]; exact h10), if_pos (Bool.not_eq_false _ ▸ hlast)]
      · exact fun hno => absurd hno hlast

/-! ## Without the numbers -/

/-! ## Samples -/

/-- A part of GIOP 1.2, little endian: a request id and some bytes. -/
def wirePart (type : MsgType) (octet id : UInt8) (more : Bool) (body : List UInt8) :
    QueuedData where
  msgBlock := ⟨0, [71, 73, 79, 80, 1, 2, if more then 3 else 1, octet, .ofNat (4 + body.length), 0,
    0, 0, id, 0, 0, 0] ++ body, 0, 16 + body.length⟩
  cont := []
  state := ⟨⟨1, 2⟩, 1, type, .ofNat (4 + body.length), more⟩

/-- A part of a Request on the stack, and the last one of the same Request. -/
theorem owned_iff_last : ∃ result f, consolidateNodes .plain true
      [⟨1, wirePart .request 0 7 true [1, 2]⟩] ⟨2, wirePart .fragment 7 7 false [3]⟩ =
        some (result, f) ∧
    Owned [⟨2, wirePart .fragment 7 7 false [3]⟩, ⟨1, wirePart .request 0 7 true [1, 2]⟩] f := by
  have hversion : checkRevision (wirePart .fragment 7 7 false [3]).state.giopVersion.major
      (wirePart .fragment 7 7 false [3]).state.giopVersion.minor = true := by decide
  obtain ⟨result, f, hcall, howned⟩ := @owned_iff .plain true
    [⟨1, wirePart .request 0 7 true [1, 2]⟩] ⟨2, wirePart .fragment 7 7 false [3]⟩ hversion
  refine ⟨result, f, hcall, howned.mpr fun _ _ _ => ⟨by decide, ?_⟩⟩
  exact forall_mem_singleton.mpr fun _ => by decide

/-- A CloseConnection with more fragments to come is stacked. The last part of any message then
makes the call return -1, and is itself neither kept nor released. -/
theorem stacked_close_loses_last : ∃ f f',
    consolidateNodes .plain true [] ⟨1, wirePart .closeConnection 5 7 true []⟩ = some (1, f) ∧
    consolidateNodes .plain true f.stack ⟨2, wirePart .fragment 7 1 false []⟩ = some (-1, f') ∧
    ¬Owned (⟨2, wirePart .fragment 7 1 false []⟩ :: f.stack) f' := by
  refine ⟨⟨[⟨1, wirePart .closeConnection 5 7 true []⟩], none, [], []⟩, ⟨[], none, [], [1]⟩,
    ?_, ?_, ?_⟩
  · decide
  · decide
  · exact not_owned_of_length (by decide)

end Atcd.Giop
