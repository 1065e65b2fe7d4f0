import MosquittoSubs.SysTree

set_option autoImplicit false

/-!
# Subscribing

`sub__add` and the functions it calls. Every allocation is a request to the
environment's allocator and may fail; each failure returns `MOSQ_ERR_NOMEM` at once.
-/

namespace MosquittoSubs.Subscribe
open Model SysTree

/-- `sub__add_hier_entry`: a new empty node keyed `topic` among `parent`'s children, or in
`db.subs` for a `NULL` parent; `NULL` when its allocation fails. -/
def subAddHierEntry (env : Env) (parent : Option Addr) (topic : String) (s : Broker) :
    Option Addr × Broker :=
  if env.allocOk s.allocs then
    match parent with
    | some p =>
      (some (topic :: p), ((s.bump.setHier (topic :: p) (some .empty)).setSubs (.normal (topic :: p))
        []).modifyHier p fun n => { n with children := n.children ++ [topic] })
    | none => (some [topic], (s.bump.setHier [topic] (some .empty)).setSubs (.normal [topic]) [])
  else (none, s.bump)

/-- `leaf->context && leaf->context->id && !strcmp(leaf->context->id, context->id)`. -/
def sameId (env : Env) (context : ClientRef) (s : Broker) (l : LeafRef) : Bool :=
  match s.leaves l with
  | some leaf =>
    match (env.client leaf.context).id with
    | some id => (env.client context).id = some id
    | none => false
  | none => false

/-- The return code of `sub__add_leaf`, with `*newleaf` when it is `MOSQ_ERR_SUCCESS`. -/
inductive LeafAdded
  | subExists
  | added (l : LeafRef)
  | nomem

/-- `sub__add_leaf` on the list at `h`: a leaf of a client with the same id is updated in
place, and otherwise a new leaf is appended. -/
def subAddLeaf (env : Env) (context : ClientRef) (sub : Subscription) (h : Host) (s : Broker) :
    LeafAdded × Broker :=
  match (s.subs h).find? (sameId env context s) with
  | some l =>
    (.subExists, s.modifyLeaf l fun leaf =>
      { leaf with identifier := sub.identifier, subscriptionOptions := sub.options })
  | none =>
    if env.allocOk s.allocs then
      let l := s.allocs
      let s := s.bump.setLeaf l (some ⟨context, sub.identifier, sub.options, sub.topicFilter,
        none, none⟩)
      (.added l, s.setSubs h (s.subs h ++ [l]))
    else (.nomem, s.bump)

/-- The first empty slot takes the leaf; `none` when every slot is taken. -/
def assignSlot (l : LeafRef) : List (Option LeafRef) → Option (List (Option LeafRef))
  | [] => none
  | none :: xs => some (some l :: xs)
  | some x :: xs => (assignSlot l xs).map (some x :: ·)

theorem assignSlot_filterMap {l : LeafRef} :
    ∀ {xs ys : List (Option LeafRef)}, assignSlot l xs = some ys →
      (ys.filterMap id).Perm (xs.filterMap id ++ [l])
  | [], _, h => by simp [assignSlot] at h
  | none :: xs, ys, h => by
    simp only [assignSlot, Option.some.injEq] at h
    subst h
    simpa using (List.perm_append_singleton l (xs.filterMap id)).symm
  | some x :: xs, ys, h => by
    simp only [assignSlot, Option.map_eq_some'] at h
    obtain ⟨zs, hz, rfl⟩ := h
    simpa using (assignSlot_filterMap hz).cons x

/-- The index update that `sub__add_normal` and `sub__add_shared` share: the first empty slot
of `context->subs`, or else a slot added by `mosquitto__realloc`; `false` when that fails. -/
def addToIndex (env : Env) (context : ClientRef) (l : LeafRef) (s : Broker) : Bool × Broker :=
  let ctx := s.contexts context
  match assignSlot l ctx.subs with
  | some subs => (true, s.setContext context ⟨subs, ctx.subsCount + 1⟩)
  | none =>
    if env.allocOk s.allocs then
      (true, s.bump.setContext context ⟨ctx.subs ++ [some l], ctx.subsCount + 1⟩)
    else (false, s.bump)

/-- What `sub__add_normal` and `sub__add_shared` return for `rc`: MQTT v3.1 and v5 clients
get `rc`, the others `MOSQ_ERR_SUCCESS`, so that retained messages are sent again. -/
def protocolRc (env : Env) (context : ClientRef) (rc : Int) : Int :=
  if (env.client context).protocol = .mqtt31 ∨ (env.client context).protocol = .mqtt5 then rc
  else MosqErr.success

def subAddNormal (env : Env) (context : ClientRef) (sub : Subscription) (a : Addr)
    (s : Broker) : Int × Broker :=
  match subAddLeaf env context sub (.normal a) s with
  | (.nomem, s) => (MosqErr.nomem, s)
  | (.subExists, s) => (protocolRc env context MosqErr.subExists, s)
  | (.added l, s) =>
    let s := s.modifyLeaf l fun leaf => { leaf with hier := some a, shared := none }
    match addToIndex env context l s with
    | (false, s) =>
      (MosqErr.nomem, (s.setSubs (.normal a) ((s.subs (.normal a)).erase l)).setLeaf l none)
    | (true, s) =>
      let s := if env.withSysTree then
          (subUpdateSubscribedTopics env a { s with subscriptionCount := s.subscriptionCount + 1 }).2
        else s
      (protocolRc env context MosqErr.success, s)

/-- `HASH_DELETE` of the group `name` from the node's `shared` hash. -/
def deleteShared (a : Addr) (name : String) (s : Broker) : Broker :=
  s.modifyHier a fun n => { n with shared := n.shared.erase name }

/-- `sub__remove_shared_leaf`: unlink the leaf, and delete its group if that empties it. -/
def subRemoveSharedLeaf (a : Addr) (name : String) (l : LeafRef) (s : Broker) : Broker :=
  let s := s.setSubs (.shared a name) ((s.subs (.shared a name)).erase l)
  if s.subs (.shared a name) = [] then deleteShared a name s else s

/-- The `HASH_FIND` of the group in `subhier->shared`, and a new empty group when there is
none; `false` when its allocation fails. -/
def findOrAddShared (env : Env) (a : Addr) (name : String) (s : Broker) : Bool × Broker :=
  if name ∈ s.groups a then (true, s)
  else if env.allocOk s.allocs then
    (true, (s.bump.modifyHier a fun n => { n with shared := n.shared ++ [name] }).setSubs
      (.shared a name) [])
  else (false, s.bump)

def subAddShared (env : Env) (context : ClientRef) (sub : Subscription) (a : Addr)
    (sharename : String) (s : Broker) : Int × Broker :=
  match findOrAddShared env a sharename s with
  | (false, s) => (MosqErr.nomem, s)
  | (true, s) =>
    match subAddLeaf env context sub (.shared a sharename) s with
    | (.nomem, s) =>
      (MosqErr.nomem, if s.subs (.shared a sharename) = [] then
        deleteShared a sharename s else s)
    | (.subExists, s) => (protocolRc env context MosqErr.subExists, s)
    | (.added l, s) =>
      let s := s.modifyLeaf l fun leaf => { leaf with hier := some a, shared := some sharename }
      match addToIndex env context l s with
      | (false, s) => (MosqErr.nomem, (subRemoveSharedLeaf a sharename l s).setLeaf l none)
      | (true, s) =>
        (protocolRc env context MosqErr.success, if env.withSysTree then
          { s with sharedSubscriptionCount := s.sharedSubscriptionCount + 1 } else s)

/-- The `while` loop of `sub__add_context`: the child for each level, made when missing. -/
def addContextWalk (env : Env) : Addr → List String → Broker → Except (Int × Broker) (Addr × Broker)
  | a, [], s => .ok (a, s)
  | a, t :: ts, s =>
    if t.length > uint16Max then .error (MosqErr.inval, s)
    else
      match s.hier (t :: a) with
      | some _ => addContextWalk env (t :: a) ts s
      | none =>
        match subAddHierEntry env (some a) t s with
        | (some b, s) => addContextWalk env b ts s
        | (none, s) => .error (MosqErr.nomem, s)

def subAddContext (env : Env) (context : ClientRef) (sub : Subscription) (a : Addr)
    (topics : List String) (sharename : Option String) (s : Broker) : Int × Broker :=
  match addContextWalk env a topics s with
  | .error r => r
  | .ok (b, s) =>
    if (env.client context).id.isSome then
      match sharename with
      | some g => subAddShared env context sub b g s
      | none => subAddNormal env context sub b s
    else (MosqErr.success, s)

/-- `sub__add` on the levels and share name that `sub__topic_tokenise` makes of
`sub->topic_filter`; an empty list stands for a filter it rejects with `MOSQ_ERR_INVAL`. -/
def subAdd (env : Env) (context : ClientRef) (sub : Subscription) (topics : List String)
    (sharename : Option String) (s : Broker) : Int × Broker :=
  match topics with
  | [] => (MosqErr.inval, s)
  | t0 :: _ =>
    if t0.length > uint16Max then (MosqErr.inval, s)
    else
      match s.hier [t0] with
      | some _ => subAddContext env context sub [t0] topics sharename s
      | none =>
        match subAddHierEntry env none t0 s with
        | (some a, s) => subAddContext env context sub a topics sharename s
        | (none, s) => (MosqErr.nomem, s)

end MosquittoSubs.Subscribe
