import Mathlib

set_option autoImplicit false

/-!
# The subscription engine's data

The structures of `subs.c` (`mosquitto__subhier`, `mosquitto__subshared`,
`mosquitto__subleaf`), the part of a client context the engine writes, and the
collaborators it calls. A trie node is addressed by its keys from itself up to its
`db.subs` root, so its `topic` is the head of its address and its `parent` is the
tail: `sub__add_hier_entry` sets both fields and nothing writes them afterwards.
Leaves live on a heap, because a client's `subs` array holds pointers to them, and every
leaf list (a node's `subs`, a group's `subs`) is kept by the list's host.
C strings are Lean strings, one character per byte.
-/

namespace MosquittoSubs.Model

/-- The values of `enum mosq_err_t` (mosquitto.h) that `subs.c` returns or tests. -/
def MosqErr.noSubscribers : Int := -3
def MosqErr.subExists : Int := -2
def MosqErr.success : Int := 0
def MosqErr.nomem : Int := 1
def MosqErr.inval : Int := 3
def MosqErr.aclDenied : Int := 12

/-- `MQTT_RC_NO_SUBSCRIPTION_EXISTED` (mqtt_protocol.h). -/
def mqttRcNoSubscriptionExisted : UInt8 := 17

/-- `UINT16_MAX`, the bound on a level's length. -/
def uint16Max : Nat := 65535

/-- The `MQTT_SUB_OPT_GET_*` masks of mqtt_protocol.h. -/
def mqttSubOptGetQos (o : UInt8) : UInt8 := o &&& 0x03
def mqttSubOptGetNoLocal (o : UInt8) : UInt8 := o &&& 0x04
def mqttSubOptGetRetainAsPublished (o : UInt8) : UInt8 := o &&& 0x08

inductive Protocol
  | invalid
  | mqtt31
  | mqtt311
  | mqtts
  | mqtt5
  deriving DecidableEq, Repr

/-- A client context pointer. -/
abbrev ClientRef := Nat

/-- A leaf pointer. -/
abbrev LeafRef := Nat

/-- A node's address: its own key, then its parent's, up to its key in `db.subs`. -/
abbrev Addr := List String

/-- The fields of `struct mosquitto` that the engine reads and never writes. -/
structure Client where
  id : Option String
  protocol : Protocol

/-- `struct mosquitto_subscription`. -/
structure Subscription where
  topicFilter : String
  identifier : UInt32
  options : UInt8
  deriving DecidableEq, Repr

structure Subleaf where
  context : ClientRef
  identifier : UInt32
  subscriptionOptions : UInt8
  topicFilter : String
  hier : Option Addr
  shared : Option String
  deriving DecidableEq, Repr

/-- The list a leaf is linked into: a node's `subs`, or the `subs` of one of its shared
groups (`struct mosquitto__subshared`, named in the node's `shared` hash). -/
inductive Host
  | normal (a : Addr)
  | shared (a : Addr) (name : String)
  deriving DecidableEq, Repr

def Host.addr : Host → Addr
  | .normal a => a
  | .shared a _ => a

/-- The group a leaf in the list at `h` records in its `shared` field. -/
def Host.sharedName : Host → Option String
  | .normal _ => none
  | .shared _ g => some g

/-- The list a leaf with back pointers `hier` and `shared` is linked into. -/
def Host.of (a : Addr) : Option String → Host
  | none => .normal a
  | some g => .shared a g

@[simp] theorem Host.of_addr (a : Addr) (g : Option String) : (Host.of a g).addr = a := by
  cases g <;> rfl

@[simp] theorem Host.of_sharedName (a : Addr) (g : Option String) :
    (Host.of a g).sharedName = g := by
  cases g <;> rfl

/-- The list a leaf's back pointers name, once it has been given them. -/
def Subleaf.host (leaf : Subleaf) : Option Host := leaf.hier.map (Host.of · leaf.shared)

@[simp] theorem Subleaf.host_eq_some (leaf : Subleaf) (h : Host) :
    leaf.host = some h ↔ leaf.hier = some h.addr ∧ leaf.shared = h.sharedName := by
  obtain ⟨_, _, _, _, hier, shared⟩ := leaf
  cases hier <;> cases shared <;> cases h <;> simp [Subleaf.host, Host.of, Host.addr, Host.sharedName]

/-- A trie node: the keys of its `children` hash and the names of the groups of its `shared`
hash, each in insertion order. Its leaf lists are kept by the broker, by `Host`. -/
structure Subhier where
  children : List String
  shared : List String
  deriving DecidableEq, Repr

/-- `subs`, `subs_capacity` (the length) and `subs_count` of `struct mosquitto`. -/
structure Context where
  subs : List (Option LeafRef)
  subsCount : Int
  deriving DecidableEq, Repr

/-- The fields of `struct mosquitto__base_msg` that reach the collaborators. -/
structure BaseMsg where
  payload : String
  qos : UInt8
  retain : Bool
  deriving DecidableEq, Repr

/-- The arguments of one `db__message_insert_outgoing` call. -/
structure Outgoing where
  context : ClientRef
  mid : UInt16
  qos : UInt8
  retain : Bool
  identifier : UInt32
  deriving DecidableEq, Repr

/-- The world outside `subs.c`: client identities, the build and configuration, the
allocator (whether the `n`-th allocation request of the run succeeds), and the
collaborators `mosquitto_acl_check`, `db__message_insert_outgoing` and `retain__store`. -/
structure Env where
  client : ClientRef → Client
  upgradeOutgoingQos : Bool
  withSysTree : Bool
  allocOk : Nat → Bool
  aclCheck : ClientRef → String → BaseMsg → Int
  insertOutgoing : Outgoing → BaseMsg → Int
  retainStore : String → BaseMsg → List String → Int

/-- The engine's state: every trie node by address (the roots are `db.subs`), every leaf
list by host, the leaf heap, each context's subscription array and last packet
identifier, the `WITH_SYS_TREE` counters, the number of allocation requests so far (also
the address of the next block), and logs of the `subs__send`,
`db__message_insert_outgoing` and persistence calls. -/
structure Broker where
  hier : Addr → Option Subhier
  subs : Host → List LeafRef
  leaves : LeafRef → Option Subleaf
  contexts : ClientRef → Context
  lastMid : ClientRef → UInt16
  subscriptionCount : Int
  sharedSubscriptionCount : Int
  allocs : Nat
  sends : List LeafRef
  outgoing : List Outgoing
  persistDeleted : List (ClientRef × String)

def Subhier.empty : Subhier := ⟨[], []⟩

namespace Broker

variable (s : Broker)

@[simp]
def setHier (a : Addr) (n : Option Subhier) : Broker := { s with hier := Function.update s.hier a n }

/-- The node at `a`, if there is one, updated by `f`. -/
@[simp]
def modifyHier (a : Addr) (f : Subhier → Subhier) : Broker := s.setHier a ((s.hier a).map f)

@[simp]
def setLeaf (l : LeafRef) (leaf : Option Subleaf) : Broker :=
  { s with leaves := Function.update s.leaves l leaf }

@[simp]
def modifyLeaf (l : LeafRef) (f : Subleaf → Subleaf) : Broker := s.setLeaf l ((s.leaves l).map f)

@[simp]
def setContext (c : ClientRef) (ctx : Context) : Broker :=
  { s with contexts := Function.update s.contexts c ctx }

/-- One allocation request has been made. -/
@[simp]
def bump : Broker := { s with allocs := s.allocs + 1 }

@[simp]
def setSubs (h : Host) (l : List LeafRef) : Broker := { s with subs := Function.update s.subs h l }

/-- The keys of the node's `children` hash; none when there is no node. -/
def children (a : Addr) : List String := ((s.hier a).map (·.children)).getD []

/-- The names of the node's shared groups; none when there is no node. -/
def groups (a : Addr) : List String := ((s.hier a).map (·.shared)).getD []

/-- Whether the leaf `l` belongs to `context` (`leaf->context == context`). -/
def leafOf (context : ClientRef) (l : LeafRef) : Bool :=
  match s.leaves l with
  | some leaf => leaf.context = context
  | none => false

end Broker

end MosquittoSubs.Model
