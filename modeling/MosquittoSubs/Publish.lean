import MosquittoSubs.Model

set_option autoImplicit false

/-!
# Publish matching

`subs__send`, `subs__shared_process`, `subs__process`, `sub__search` and
`sub__messages_queue`. The search threads the broker through every delivery, since a
delivery rotates shared groups and draws packet identifiers.
-/

namespace MosquittoSubs.Publish
open Model

/-- Modelled from the spec: `mosquitto__mid_generate` (not under src/), the subscriber's
monotonic generator of non-zero 16-bit packet identifiers. -/
def midGenerate (c : ClientRef) (s : Broker) : UInt16 × Broker :=
  let mid : UInt16 := if s.lastMid c + 1 = 0 then 1 else s.lastMid c + 1
  (mid, { s with lastMid := Function.update s.lastMid c mid })

/-- `subs__send`: the ACL check, then the outgoing QoS, packet identifier and retain flag
handed to `db__message_insert_outgoing`. Every call is logged in `sends`. -/
def subsSend (env : Env) (l : LeafRef) (topic : String) (qos : UInt8) (retain : Bool)
    (stored : BaseMsg) (s : Broker) : Int × Broker :=
  let s := { s with sends := s.sends ++ [l] }
  match s.leaves l with
  | none => (MosqErr.success, s)
  | some leaf =>
    let rc2 := env.aclCheck leaf.context topic stored
    if rc2 = MosqErr.aclDenied then (MosqErr.success, s)
    else if rc2 = MosqErr.success then
      let clientQos := mqttSubOptGetQos leaf.subscriptionOptions
      let msgQos := if env.upgradeOutgoingQos then clientQos
        else if qos > clientQos then clientQos else qos
      let m := if msgQos ≠ 0 then midGenerate leaf.context s else (0, s)
      let clientRetain :=
        if mqttSubOptGetRetainAsPublished leaf.subscriptionOptions ≠ 0 then retain else false
      let out : Outgoing := ⟨leaf.context, m.1, msgQos, clientRetain, leaf.identifier⟩
      (if env.insertOutgoing out stored = 1 then 1 else MosqErr.success,
        { m.2 with outgoing := m.2.outgoing ++ [out] })
    else (1, s)

section Loops

variable (env : Env) (topic : String) (qos : UInt8) (retain : Bool) (stored : BaseMsg)

/-- `subs__shared_process` over the groups `gs` of the node `a`, in hash order: each group's
head is given to `subs__send` and then moved to its tail. A group with no members, which
the engine never keeps, is passed over. -/
def subsSharedProcess (a : Addr) : List String → Int → Broker → Int × Broker
  | [], rc, s => (rc, s)
  | g :: gs, rc, s =>
    match s.subs (.shared a g) with
    | [] => subsSharedProcess a gs rc s
    | l :: rest =>
      let r := subsSend env l topic qos retain stored s
      subsSharedProcess a gs (if r.1 ≠ 0 then 1 else rc) (r.2.setSubs (.shared a g) (rest ++ [l]))

/-- The leaves `subs__process` passes over: no client id, or no-local on the sender's id. -/
def skips (sourceId : String) (s : Broker) (l : LeafRef) : Bool :=
  match s.leaves l with
  | none => true
  | some leaf =>
    match (env.client leaf.context).id with
    | none => true
    | some id => mqttSubOptGetNoLocal leaf.subscriptionOptions ≠ 0 && id = sourceId

/-- The `while(source_id && leaf)` loop of `subs__process`. -/
def sendLeaves (sourceId : String) : List LeafRef → Int → Broker → Int × Broker
  | [], rc, s => (rc, s)
  | l :: ls, rc, s =>
    if skips env sourceId s l then sendLeaves sourceId ls rc s
    else
      let r := subsSend env l topic qos retain stored s
      sendLeaves sourceId ls (if r.1 ≠ 0 then 1 else rc) r.2

def subsProcess (sourceId : Option String) (a : Addr) (s : Broker) : Int × Broker :=
  let r := subsSharedProcess env topic qos retain stored a (s.groups a) 0 s
  let r := match sourceId with
    | some src => sendLeaves env topic qos retain stored src (s.subs (.normal a)) r.1 r.2
    | none => r
  (if s.subs (.normal a) = [] ∧ s.groups a = [] then MosqErr.noSubscribers else r.1, r.2)

end Loops

/-- Where `sub__search` stands after one of its blocks: still searching, with
`have_subscribers`, or returned with a code. -/
inductive Walk
  | going (found : Bool) (s : Broker)
  | returned (rc : Int) (s : Broker)

/-- `if(rc == MOSQ_ERR_SUCCESS) have_subscribers = true;
else if(rc != MOSQ_ERR_NO_SUBSCRIBERS) return rc;` -/
def Walk.absorb (found : Bool) : Int × Broker → Walk
  | (rc, s) =>
    if rc = MosqErr.success then .going true s
    else if rc = MosqErr.noSubscribers then .going found s else .returned rc s

/-- The broker a block ends with. -/
def Walk.broker : Walk → Broker
  | .going _ s => s
  | .returned _ s => s

def Walk.bind : Walk → (Bool → Broker → Walk) → Walk
  | .going found s, k => k found s
  | .returned rc s, _ => .returned rc s

def Walk.finish : Walk → Int × Broker
  | .going found s => (if found then MosqErr.success else MosqErr.noSubscribers, s)
  | .returned rc s => (rc, s)

/-- The literal and the `+` block of `sub__search`, at the child `b`: search below it, and
process it when the topic ends there. -/
def searchBranch (process search : Addr → Broker → Int × Broker) (last : Bool) (b : Addr)
    (found : Bool) (s : Broker) : Walk :=
  match s.hier b with
  | none => .going found s
  | some _ =>
    (Walk.absorb found (search b s)).bind fun found s =>
      if last then Walk.absorb found (process b s) else .going found s

/-- The `#` block of `sub__search` at the node `a`. -/
def searchHash (process : Addr → Broker → Int × Broker) (a : Addr) (found : Bool) (s : Broker) :
    Walk :=
  match s.hier ("#" :: a) with
  | some _ =>
    if s.children ("#" :: a) = [] then Walk.absorb found (process ("#" :: a) s) else .going found s
  | none => .going found s

def subSearch (env : Env) (sourceId : Option String) (topic : String) (qos : UInt8)
    (retain : Bool) (stored : BaseMsg) : Addr → List String → Broker → Int × Broker
  | a, [], s => (searchHash (subsProcess env topic qos retain stored sourceId) a false s).finish
  | a, t :: rest, s =>
    let process := subsProcess env topic qos retain stored sourceId
    let search := fun b s => subSearch env sourceId topic qos retain stored b rest s
    ((searchBranch process search rest.isEmpty (t :: a) false s).bind fun found s =>
      (searchBranch process search rest.isEmpty ("+" :: a) found s).bind fun found s =>
        searchHash process a found s).finish

/-- `sub__messages_queue` on the topic and its tokens; an empty token list stands for a
topic that `sub__topic_tokenise` rejects. -/
def subMessagesQueue (env : Env) (sourceId : Option String) (topic : String)
    (splitTopics : List String) (qos : UInt8) (retain : Bool) (stored : BaseMsg) (s : Broker) :
    Int × Broker :=
  match splitTopics with
  | [] => (1, s)
  | t0 :: _ =>
    let r := match s.hier [t0] with
      | some _ => subSearch env sourceId topic qos retain stored [t0] splitTopics s
      | none => (MosqErr.success, s)
    if retain then
      let rc2 := env.retainStore topic stored splitTopics
      (if rc2 ≠ 0 then rc2 else r.1, r.2)
    else r

end MosquittoSubs.Publish
