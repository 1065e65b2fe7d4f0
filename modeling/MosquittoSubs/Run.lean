import MosquittoSubs.Unsubscribe
import MosquittoSubs.Clean

set_option autoImplicit false

/-!
# Runs of the engine

The four entry points, the states before any subscription, and the states reachable
from them by calls the caller is allowed to make.
-/

namespace MosquittoSubs.Run
open Model Publish Subscribe Unsubscribe Clean

/-- A call into the engine from the session and protocol layers. -/
inductive Op
  | subAdd (context : ClientRef) (sub : Subscription) (topics : List String)
      (sharename : Option String)
  | subRemove (context : ClientRef) (topics : List String) (sharename : Option String)
      (reason : UInt8)
  | subCleanSession (context : ClientRef)
  | subMessagesQueue (sourceId : Option String) (topic : String) (topics : List String)
      (qos : UInt8) (retain : Bool) (stored : BaseMsg)

def Op.run (env : Env) : Op → Broker → Int × Broker
  | .subAdd c sub ts g, s => Subscribe.subAdd env c sub ts g s
  | .subRemove c ts g r, s =>
    ((Unsubscribe.subRemove env c ts g r s).1, (Unsubscribe.subRemove env c ts g r s).2.2)
  | .subCleanSession c, s => Clean.subCleanSession env c s
  | .subMessagesQueue src t ts q r m, s => Publish.subMessagesQueue env src t ts q r m s

/-- A state before any subscription: `db.subs` holds roots without children, every list is
empty, there are no leaves, every context's array is empty and the counters are zero. -/
structure Initial (s : Broker) : Prop where
  roots : ∀ a n, s.hier a = some n → a.length = 1 ∧ n = Subhier.empty
  lists : ∀ h, s.subs h = []
  noLeaves : ∀ l, s.leaves l = none
  contexts : ∀ c, s.contexts c = ⟨[], 0⟩
  subscriptionCount : s.subscriptionCount = 0
  sharedSubscriptionCount : s.sharedSubscriptionCount = 0

/-- The states reached from an initial state by calls `op` whose return code `rc` satisfies
`ok op rc`. -/
inductive Reachable (env : Env) (ok : Op → Int → Prop) : Broker → Prop
  | init {s : Broker} : Initial s → Reachable env ok s
  | step {s : Broker} (op : Op) : Reachable env ok s → ok op (op.run env s).1 →
      Reachable env ok (op.run env s).2

theorem Reachable.mono {env : Env} {ok ok' : Op → Int → Prop} (hok : ∀ op rc, ok op rc → ok' op rc)
    {s : Broker} (h : Reachable env ok s) : Reachable env ok' s := by
  induction h with
  | init hi => exact .init hi
  | step op _ hop ih => exact .step op ih (hok _ _ hop)

/-- The state before any subscription, with no `db.subs` root. -/
def emptyBroker : Broker :=
  ⟨fun _ => none, fun _ => [], fun _ => none, fun _ => ⟨[], 0⟩, fun _ => 0, 0, 0, 0, [], [], []⟩

theorem initial_emptyBroker : Initial emptyBroker :=
  ⟨fun _ _ h => Option.noConfusion h, fun _ => rfl, fun _ => rfl, fun _ => rfl, rfl, rfl⟩

/-- The state `db__open` (not under src/) leaves: the `db.subs` roots `""` and `"$SYS"`, made
by `sub__add_hier_entry`, and no subscription. -/
def openedBroker : Broker :=
  { emptyBroker with hier := fun a => if a = [""] ∨ a = ["$SYS"] then some .empty else none }

theorem initial_openedBroker : Initial openedBroker where
  roots a n h := by
    simp only [openedBroker] at h
    split_ifs at h with ha
    cases h
    rcases ha with rfl | rfl <;> exact ⟨rfl, rfl⟩
  lists _ := rfl
  noLeaves _ := rfl
  contexts _ := rfl
  subscriptionCount := rfl
  sharedSubscriptionCount := rfl

/-- A world where the clients 1 and 2 have the ids `a` and `b` (the others none) and speak
MQTT v3.1.1, every allocation succeeds, every collaborator accepts, and the build has
`WITH_SYS_TREE` when `sys` holds. -/
def plainEnv (sys : Bool) : Env :=
  ⟨fun c => ⟨if c = 1 then some "a" else if c = 2 then some "b" else none, .mqtt311⟩, false, sys,
    fun _ => true,
    fun _ _ _ => MosqErr.success, fun _ _ => MosqErr.success, fun _ _ _ => MosqErr.success⟩

end MosquittoSubs.Run
