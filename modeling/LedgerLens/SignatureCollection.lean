import LedgerLens.OracleMessages
import Mathlib.Data.List.Basic

/-!
# Collecting the signatures of the oracle nodes

`OracleCoordinator.collect_signatures` of `detection/oracle_coordinator.py`. It calls two methods
on the coordinator, which are parameters here: with them the loop over the nodes signs exactly as
many times as it should. The class has neither of them.
-/
namespace SignatureCollection

open ByteStrings FallibleRuns OracleMessages Sha256

/-- A node, with what its `sign_score_submission` returns or the text it raises. -/
structure OracleNode where
  name : String
  publicKeyHex : String
  signScoreSubmission : ScoreFields → Except String (BytesN 64)

/-- The constructor refuses a threshold above the number of nodes. -/
structure OracleCoordinator where
  nodes : List OracleNode
  threshold : ℤ
  threshold_le : threshold ≤ nodes.length

structure QuorumSignature where
  messageBytes : List UInt8
  signatures : List (String × String)
  signersCount : ℕ
  threshold : ℤ
  isValidQuorum : Bool
  deriving DecidableEq

inductive Raised where
  | attributeError (name : String)
  | payload (error : PyError)
  deriving DecidableEq, Repr

/-- The methods that `collect_signatures` looks up on the coordinator. -/
structure Methods where
  reconfigureQuorum : Option (OracleCoordinator → OracleCoordinator)
  activeNodes : Option (OracleCoordinator → List OracleNode)

/-- Neither is defined, in the class or anywhere else. -/
def ownMethods : Methods where
  reconfigureQuorum := none
  activeNodes := none

def lookUp {α : Type} (name : String) : Option α → Except Raised α
  | none => throw (.attributeError name)
  | some method => pure method

/-- The loop over the nodes: one that raises is passed over, and the loop stops at the
threshold. -/
def signAll (threshold : ℤ) (f : ScoreFields) :
    List (String × String) → List OracleNode → List (String × String)
  | signatures, [] => signatures
  | signatures, node :: nodes =>
    match node.signScoreSubmission f with
    | .error _ => signAll threshold f signatures nodes
    | .ok sig =>
      let signatures := signatures ++ [(node.publicKeyHex, hexdigest sig)]
      if threshold ≤ signatures.length then signatures else signAll threshold f signatures nodes

def collectSignatures (methods : Methods) (c : OracleCoordinator) (f : ScoreFields) :
    Except Raised QuorumSignature := do
  let reconfigureQuorum ← lookUp "reconfigure_quorum" methods.reconfigureQuorum
  let c := reconfigureQuorum c
  let message ← (canonicalMessage sha256 f).mapError .payload
  let activeNodes ← lookUp "active_nodes" methods.activeNodes
  let signatures := signAll c.threshold f [] (activeNodes c)
  return {
    messageBytes := message
    signatures := signatures
    signersCount := signatures.length
    threshold := c.threshold
    isValidQuorum := c.threshold ≤ signatures.length }

def OracleNode.entry (f : ScoreFields) (node : OracleNode) : Option (String × String) :=
  match node.signScoreSubmission f with
  | .error _ => none
  | .ok sig => some (node.publicKeyHex, hexdigest sig)

def ableEntries (f : ScoreFields) (nodes : List OracleNode) : List (String × String) :=
  nodes.filterMap (OracleNode.entry f)

/-- The nodes that are able to sign sign in order, until the threshold, and the first in any
case. -/
theorem signAll_eq (threshold : ℤ) (f : ScoreFields) (signatures : List (String × String))
    (nodes : List OracleNode) :
    signAll threshold f signatures nodes =
      signatures ++ (ableEntries f nodes).take (max 1 (threshold - signatures.length).toNat) := by
  induction nodes generalizing signatures with
  | nil => simp [signAll, ableEntries]
  | cons node nodes ih =>
    rw [signAll, ableEntries]
    cases hsign : node.signScoreSubmission f with
    | error text =>
      have hentry : node.entry f = none := by rw [OracleNode.entry, hsign]
      rw [List.filterMap_cons_none hentry, ih]
      rfl
    | ok sig =>
      have hentry : node.entry f = some (node.publicKeyHex, hexdigest sig) := by
        rw [OracleNode.entry, hsign]
      rw [List.filterMap_cons_some hentry]
      simp only
      rw [ih]
      have hlength : ((signatures ++ [(node.publicKeyHex, hexdigest sig)]).length : ℤ) =
          signatures.length + 1 := by simp
      rw [hlength]
      split_ifs with hreached
      · have hone : max 1 (threshold - signatures.length).toNat = 1 := by omega
        rw [hone, List.take_succ_cons, List.take_zero]
      · have hmore : max 1 (threshold - signatures.length).toNat =
            max 1 (threshold - (signatures.length + 1)).toNat + 1 := by omega
        rw [hmore, List.take_succ_cons, List.append_assoc, List.singleton_append]
        rfl

theorem signAll_reaches_iff (threshold : ℤ) (f : ScoreFields) (nodes : List OracleNode) :
    threshold ≤ (signAll threshold f [] nodes).length ↔
      threshold ≤ (ableEntries f nodes).length := by
  rw [signAll_eq, List.nil_append, List.length_take, List.length_nil]
  omega

def QuorumSized (c : OracleCoordinator) (f : ScoreFields) (q : QuorumSignature) : Prop :=
  q.isValidQuorum = true ∧ c.threshold ≤ q.signatures.length ∧
    ∀ entry ∈ q.signatures, ∃ node ∈ c.nodes, ∃ sig,
      node.signScoreSubmission f = .ok sig ∧ entry = (node.publicKeyHex, hexdigest sig)

/-- The call returns, with a quorum exactly where enough nodes are able to sign. -/
def Promise (methods : Methods) (c : OracleCoordinator) (f : ScoreFields) : Prop :=
  ∃ q, collectSignatures methods c f = .ok q ∧
    (QuorumSized c f q ↔ c.threshold ≤ (ableEntries f c.nodes).length)

/-- The two missing lookups are all that is wrong: with methods that keep the coordinator and take
every node for active, the promise holds of every payload that can be signed. -/
theorem promise_of_methods {c : OracleCoordinator} {f : ScoreFields} {message : List UInt8}
    (hmessage : canonicalMessage sha256 f = .ok message) :
    Promise ⟨some id, some OracleCoordinator.nodes⟩ c f := by
  let signatures := signAll c.threshold f [] c.nodes
  refine ⟨⟨message, signatures, signatures.length, c.threshold, c.threshold ≤ signatures.length⟩,
    ?_, ?_⟩
  · rw [collectSignatures, hmessage]
    rfl
  · constructor
    · rintro ⟨-, hreached, -⟩
      exact (signAll_reaches_iff _ _ _).mp hreached
    · intro hable
      have hreached := (signAll_reaches_iff c.threshold f c.nodes).mpr hable
      refine ⟨decide_eq_true hreached, hreached, fun entry hentry => ?_⟩
      have hentry : entry ∈ signAll c.threshold f [] c.nodes := hentry
      rw [signAll_eq, List.nil_append] at hentry
      obtain ⟨node, hnode, hsigned⟩ := List.mem_filterMap.mp (List.mem_of_mem_take hentry)
      refine ⟨node, hnode, ?_⟩
      rw [OracleNode.entry] at hsigned
      cases hsign : node.signScoreSubmission f with
      | error text =>
        rw [hsign] at hsigned
        cases hsigned
      | ok sig =>
        rw [hsign] at hsigned
        exact ⟨sig, rfl, (Option.some.inj hsigned).symm⟩

/-- As the class stands, no call returns, for any nodes, threshold and payload. -/
theorem promise_never (c : OracleCoordinator) (f : ScoreFields) :
    collectSignatures ownMethods c f = .error (.attributeError "reconfigure_quorum") ∧
      ¬ Promise ownMethods c f := by
  have hraised : collectSignatures ownMethods c f =
      .error (.attributeError "reconfigure_quorum") := rfl
  refine ⟨hraised, ?_⟩
  rintro ⟨q, hreturns, -⟩
  rw [hraised] at hreturns
  cases hreturns

def signingNode (name publicKeyHex : String) : OracleNode where
  name := name
  publicKeyHex := publicKeyHex
  signScoreSubmission _ := .ok (.ofNat 64 1)

def threeNodes : OracleCoordinator where
  nodes := [signingNode "oracle-0" "00", signingNode "oracle-1" "01", signingNode "oracle-2" "02"]
  threshold := 2
  threshold_le := by decide

theorem three_nodes_raise :
    threeNodes.threshold ≤ (ableEntries exampleFields threeNodes.nodes).length ∧
      collectSignatures ownMethods threeNodes exampleFields =
        .error (.attributeError "reconfigure_quorum") ∧
      ¬ Promise ownMethods threeNodes exampleFields := by
  refine ⟨by decide +kernel, rfl, ?_⟩
  rintro ⟨q, hreturns, -⟩
  cases hreturns

end SignatureCollection
