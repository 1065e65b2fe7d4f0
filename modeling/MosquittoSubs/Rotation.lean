import MosquittoSubs.Untouched
import MosquittoSubs.Refinement

set_option autoImplicit false

/-!
# Rotation of a shared group over a run

`subs__shared_process` hands the head of each group at a processed node to `subs__send` and
moves it to the tail. Over a run, a group `G` at the node of the filter `F` is then a queue:
each publish of a topic with no wildcard level that `F` matches attempts its head and turns
it by one. `sub__topic_tokenise` files every `$share/<g>/` filter below the root `""`, so
every group lives there; the only other publishes, the `$SYS/broker/subscribed_topics`
updates of the `WITH_SYS_TREE` build, search below the root `$SYS`. So in either build a
call that keeps `G`'s members keeps its order and attempts none of them, and `m` such
publishes attempt each of `G`'s `m` members once, in order, and leave `G` as it was.
-/

namespace MosquittoSubs.Rotation
open Model Publish SysTree Subscribe Unsubscribe Clean Run Frame Invariant Preservation Shape
  SubscribeSpec Matching Delivery Publication Untouched Refinement

/-- Whether the call is a publish of a topic the filter `F` matches. -/
def publishesTo (F : List String) : Op → Bool
  | .subMessagesQueue _ _ T _ _ _ => topicMatches F T
  | _ => false

/-- A publish whose topic has no wildcard level; every other call. -/
def plainTopic : Op → Prop
  | .subMessagesQueue _ _ T _ _ _ => "+" ∉ T ∧ "#" ∉ T
  | _ => True

/-- The state after the calls `ops`, made in order from `s`. -/
def runOps (env : Env) : List Op → Broker → Broker
  | [], s => s
  | op :: ops, s => runOps env ops (op.run env s).2

/-- For each call of `ops` made in order from `s`, the leaves of `M` it hands to
`subs__send`, in its order. -/
def memberSends (env : Env) (M : List LeafRef) : List Op → Broker → List (List LeafRef)
  | [], _ => []
  | op :: ops, s =>
    ((op.run env s).2.sends.drop s.sends.length).filter (· ∈ M) ::
      memberSends env M ops (op.run env s).2

/-- A shared group as the spec describes it: an ordered queue, whose head a publish to the
group's filter attempts and moves to the tail, and which every other call leaves alone. For
each call, the members it attempts. -/
def rotationSends (F : List String) : List LeafRef → List Op → List (List LeafRef)
  | _, [] => []
  | M, op :: ops =>
    if publishesTo F op then M.take 1 :: rotationSends F (M.rotate 1) ops
    else [] :: rotationSends F M ops

/-- Each call of `subs__send` the publish makes returns 0; no condition on other calls. -/
def SendsSucceed (env : Env) : Op → Broker → Prop
  | .subMessagesQueue src topic T qos retain stored, s =>
    ∀ l ∈ (queueNodes s T).flatMap (nodeSends env src s), ∀ t,
      (subsSend env l topic qos retain stored t).1 = 0
  | _, _ => True

/-- The runs from a state that the rotation of the group `g` at the node of the filter `F`
is about: each call subscribes to filters as `sub__topic_tokenise` gives them, each publish
to `F` has a topic with no wildcard level and each of its calls of `subs__send` returns 0,
and each other call keeps the group's members. -/
inductive FairRun (env : Env) (F : List String) (g : String) : List Op → Broker → Prop
  | nil (s : Broker) : FairRun env F g [] s
  | cons {s : Broker} (op : Op) {ops : List Op} : TokenOk op (op.run env s).1 →
      (publishesTo F op = true → plainTopic op ∧ SendsSucceed env op s) →
      (publishesTo F op = false → ∀ l, l ∈ (op.run env s).2.subs (.shared (filterNode F) g) ↔
        l ∈ s.subs (.shared (filterNode F) g)) →
      FairRun env F g ops (op.run env s).2 → FairRun env F g (op :: ops) s

theorem filterNode_inj {F F' : List String} (h : filterNode F = filterNode F') : F = F' := by
  match F, F', h with
  | [], [], _ => rfl
  | [], _ :: _, h => simp [filterNode] at h
  | _ :: _, [], h => simp [filterNode] at h
  | f :: fs, f' :: fs', h =>
    obtain ⟨h₁, -⟩ := List.append_inj' h rfl
    exact List.reverse_inj.mp h₁

theorem eq_take_one {L G : List LeafRef} (hL : L.Nodup) (h : ∀ l, l ∈ L ↔ G.head? = some l) :
    L = G.take 1 := by
  cases G with
  | nil => simpa [List.eq_nil_iff_forall_not_mem] using h
  | cons a G =>
    refine List.perm_singleton.mp ((List.perm_ext_iff_of_nodup hL (List.nodup_singleton a)).mpr
      fun l => ?_)
    simpa [eq_comm] using h l

/-! ## Every group below the root `""` -/

/-- Every shared subscription is below the root `""`. -/
def SharedRooted (s : Broker) : Prop :=
  ∀ c a g sub, Holds s c (.shared a g) sub → a.getLast? = some ""

theorem sharedRooted_run {env : Env} {s : Broker} (hs : Inv env s) (hr : SharedRooted s)
    (op : Op) (hok : TokenOk op (op.run env s).1) : SharedRooted (op.run env s).2 := by
  intro c' a g' sub' hh
  cases op with
  | subAdd c sub ts g =>
    by_cases hy : Host.shared a g' = Host.of (filterNode ts) g
    · cases g with
      | none => cases hy
      | some g =>
        obtain ⟨rfl, -⟩ := Host.shared.inj hy
        cases ts with
        | nil => exact hr c' _ g' sub' hh
        | cons t0 rest =>
          obtain rfl : t0 = "" := hok.2.resolve_right fun h => nomatch h.1
          simp [filterNode]
    · exact hr c' a g' sub' ((holds_subAdd_of_ne hs c sub ts g hy c' sub').mp hh)
  | subRemove c ts g r =>
    have h₁ := (storeOf_eq_some (inv_subRemove hs c ts g r).lists).mpr hh
    rw [storeOf_subRemove hs, Store.unsubscribe] at h₁
    split_ifs at h₁
    exact hr c' a g' sub' ((storeOf_eq_some hs.lists).mp h₁)
  | subCleanSession c =>
    have h₁ := (storeOf_eq_some (inv_subCleanSession hs c).lists).mpr hh
    rw [storeOf_subCleanSession hs, Store.clean] at h₁
    split_ifs at h₁
    exact hr c' a g' sub' ((storeOf_eq_some hs.lists).mp h₁)
  | subMessagesQueue src t ts q r m =>
    exact hr c' a g' sub' ((holds_rot (subMessagesQueue_rot env t q r m src ts s)).mp hh)

theorem sharedRooted_reachable {env : Env} {s : Broker} (h : Reachable env TokenOk s) :
    SharedRooted s := by
  induction h with
  | init hi =>
    rintro _ _ _ _ ⟨l, -, leaf, hl, -⟩
    simp [hi.noLeaves l] at hl
  | step op hr hop ih => exact sharedRooted_run (inv_reachable hr) ih op hop

theorem getLast_of_group {env : Env} {s : Broker} (hs : Lists env s) (hr : SharedRooted s)
    {a : Addr} {g : String} (hG : s.subs (.shared a g) ≠ []) : a.getLast? = some "" := by
  obtain ⟨l, hl⟩ := List.exists_mem_of_ne_nil _ hG
  obtain ⟨leaf, hleaf, -⟩ := (hs.listed _ l).mp hl
  exact hr leaf.context a g _ ⟨l, hl, leaf, hleaf, rfl, rfl⟩

section Step

variable {env : Env} {s : Broker} (h : Reachable env TokenOk s) {F : List String} (g : String)
include h

theorem publish_turns {src : Option String} {topic : String} {T : List String} {qos : UInt8}
    {retain : Bool} {stored : BaseMsg}
    (hsend : ∀ l ∈ (queueNodes s T).flatMap (nodeSends env src s), ∀ t,
      (subsSend env l topic qos retain stored t).1 = 0)
    (hp : "+" ∉ T) (hh : "#" ∉ T) (hm : topicMatches F T = true) :
    let t := (subMessagesQueue env src topic T qos retain stored s).2
    let G := s.subs (.shared (filterNode F) g)
    t.subs (.shared (filterNode F) g) = G.rotate 1 ∧
      (t.sends.drop s.sends.length).filter (· ∈ G) = G.take 1 := by
  have hs := inv_reachable h
  have h' := h.mono fun _ _ => matchOk_of_tokenOk
  have hhl := hashLeaf_of_matchOk h'
  have hr := rooted_reachable h'
  have hsent := subMessagesQueue_sent hsend src hs.tree.groupsNodup T hp hh
    fun b hb l hl => List.mem_flatMap.mpr ⟨b, hb, hl⟩
  refine ⟨by rw [hsent.subs, turned_queueNodes_of_match hs.tree hhl hr T hm], ?_⟩
  rw [hsent.sends, List.drop_left]
  refine eq_take_one ((nodup_flatMap_nodeSends hs src (nodup_queueNodes T hp hh)).filter _)
    fun l => ?_
  simp only [List.mem_filter, decide_eq_true_eq, List.mem_flatMap]
  constructor
  · rintro ⟨⟨b, -, hb⟩, hl⟩
    rcases List.mem_append.mp hb with hb | hb
    · obtain ⟨g', -, hg'⟩ := List.mem_filterMap.mp hb
      cases host_eq_of_mem hs.lists (List.mem_of_mem_head? hg') hl
      exact hg'
    · cases host_eq_of_mem hs.lists (mem_normal_of_mem_loop hb) hl
  · intro hl
    have hmem := List.mem_of_mem_head? hl
    have hg := (hs.tree.groups _ g).mpr (List.ne_nil_of_mem hmem)
    refine ⟨⟨filterNode F, (mem_queueNodes hs.tree hhl hr T).mpr
      ⟨isSome_hier_of_groups hg, F, rfl, hm⟩, List.mem_append_left _ ?_⟩, hmem⟩
    exact List.mem_filterMap.mpr ⟨g, hg, hl⟩

theorem publish_passes {src : Option String} {topic : String} {T : List String} {qos : UInt8}
    {retain : Bool} {stored : BaseMsg} (hm : topicMatches F T = false) :
    let t := (subMessagesQueue env src topic T qos retain stored s).2
    let G := s.subs (.shared (filterNode F) g)
    t.subs (.shared (filterNode F) g) = G ∧ (t.sends.drop s.sends.length).filter (· ∈ G) = [] := by
  have hs := inv_reachable h
  have h' := h.mono fun _ _ => matchOk_of_tokenOk
  have hX : filterNode F ∉ queueNodes s T := fun hX => by
    obtain ⟨-, F', hF, hm'⟩ := (mem_queueNodes hs.tree (hashLeaf_of_matchOk h')
      (rooted_reachable h') T).mp hX
    rw [filterNode_inj hF] at hm
    simp [hm] at hm'
  have ha := @subMessagesQueue_apart env topic qos retain stored src (.shared (filterNode F) g) s
    (separate_of_lists hs.lists _) T hX
  obtain ⟨L, hL, hout⟩ := ha.sends
  refine ⟨ha.subs, ?_⟩
  rw [hL, List.drop_left, List.filter_eq_nil_iff]
  simpa using hout

theorem fair_step (op : Op) (hplain : publishesTo F op = true → plainTopic op ∧ SendsSucceed env op s)
    (hkeep : publishesTo F op = false → ∀ l, l ∈ (op.run env s).2.subs (.shared (filterNode F) g) ↔
      l ∈ s.subs (.shared (filterNode F) g)) :
    let t := (op.run env s).2
    let G := s.subs (.shared (filterNode F) g)
    t.subs (.shared (filterNode F) g) = (if publishesTo F op then G.rotate 1 else G) ∧
      (t.sends.drop s.sends.length).filter (· ∈ G) = if publishesTo F op then G.take 1 else [] := by
  have hs := inv_reachable h
  -- a call that does not publish to `F` and keeps the members: an empty group stays empty
  have hquiet : ∀ t, (s.subs (.shared (filterNode F) g) ≠ [] → Kept (.shared (filterNode F) g) s t) →
      (∀ l, l ∈ t.subs (.shared (filterNode F) g) ↔ l ∈ s.subs (.shared (filterNode F) g)) →
      t.subs (.shared (filterNode F) g) = s.subs (.shared (filterNode F) g) ∧
        (t.sends.drop s.sends.length).filter (· ∈ s.subs (.shared (filterNode F) g)) = [] := by
    intro t ht hm
    by_cases hG : s.subs (.shared (filterNode F) g) = []
    · rw [hG] at hm ⊢
      exact ⟨List.eq_nil_iff_forall_not_mem.mpr fun l hl => by simpa using (hm l).mp hl, by simp⟩
    · exact (ht hG).eq_of_mem hs.lists hm
  -- a group with members is below the root `""`, where no `$SYS` update searches
  have hx : s.subs (.shared (filterNode F) g) ≠ [] →
      (Host.shared (filterNode F) g).addr.getLast? ≠ some "$SYS" :=
    fun hG => by
      rw [Host.addr, getLast_of_group hs.lists (sharedRooted_reachable h) hG]
      decide
  have hal : ∀ l ∈ s.subs (.shared (filterNode F) g), l < s.allocs :=
    fun _ => lt_allocs_of_mem hs.lists
  have hsep := fun op => separate_of_lists (inv_run hs op).lists (.shared (filterNode F) g)
  cases op with
  | subAdd c sub ts sh =>
    exact hquiet _ (fun hG => kept_subAdd (hx hG) hal c sub ts sh (hsep (.subAdd c sub ts sh)))
      (hkeep rfl)
  | subRemove c ts sh r =>
    exact hquiet _ (fun hG => kept_subRemove (hx hG) hal c ts sh r (hsep (.subRemove c ts sh r)))
      (hkeep rfl)
  | subCleanSession c => exact hquiet _ (fun hG => kept_subCleanSession (hx hG) hal hs c) (hkeep rfl)
  | subMessagesQueue src topic T qos retain stored =>
    cases hm : topicMatches F T
    · simpa [publishesTo, hm] using publish_passes h g hm
    · obtain ⟨⟨hp, hh⟩, hsend⟩ := hplain (by simp [publishesTo, hm])
      simpa [publishesTo, hm] using publish_turns h g hsend hp hh hm

end Step

section Run

variable {env : Env} (F : List String) (g : String)

theorem fair_run {ops : List Op} {s : Broker} (hrun : FairRun env F g ops s) :
    ∀ M : List LeafRef, Reachable env TokenOk s →
      (∀ l, l ∈ M ↔ l ∈ s.subs (.shared (filterNode F) g)) →
      memberSends env M ops s = rotationSends F (s.subs (.shared (filterNode F) g)) ops ∧
      (runOps env ops s).subs (.shared (filterNode F) g) =
        (s.subs (.shared (filterNode F) g)).rotate (ops.filter (publishesTo F)).length := by
  induction hrun with
  | nil s => exact fun _ _ _ => ⟨rfl, by simp [runOps]⟩
  | @cons s op ops hok hplain hkeep _ ih =>
    intro M h hM
    obtain ⟨hG, hsent⟩ := fair_step h g op hplain hkeep
    have hM' : ∀ l, l ∈ M ↔ l ∈ (op.run env s).2.subs (.shared (filterNode F) g) := by
      intro l
      rw [hG]
      split_ifs <;> simp [List.mem_rotate, hM]
    obtain ⟨ih₁, ih₂⟩ := ih M (.step op h hok) hM'
    have hfilter : ((op.run env s).2.sends.drop s.sends.length).filter (· ∈ M) =
        ((op.run env s).2.sends.drop s.sends.length).filter
          (· ∈ s.subs (.shared (filterNode F) g)) :=
      List.filter_congr fun l _ => by simp [hM]
    refine ⟨?_, ?_⟩
    · rw [memberSends, ih₁, hfilter, hsent, hG, rotationSends]
      split_ifs <;> rfl
    · rw [runOps, ih₂, hG, List.filter_cons]
      split_ifs <;> simp [List.rotate_rotate, add_comm]

end Run

theorem flatten_rotationSends (F : List String) :
    ∀ (ops : List Op) (M : List LeafRef), (ops.filter (publishesTo F)).length ≤ M.length →
      (rotationSends F M ops).flatten = M.take (ops.filter (publishesTo F)).length
  | [], M, _ => by simp [rotationSends]
  | op :: ops, M, hk => by
    by_cases hp : publishesTo F op = true
    · rw [List.filter_cons_of_pos hp, List.length_cons] at hk ⊢
      cases M with
      | nil => simp at hk
      | cons a M =>
        have ih := flatten_rotationSends F ops (M ++ [a]) (by simp at hk ⊢; omega)
        rw [rotationSends, if_pos hp, List.flatten_cons, rotate_one_cons, ih,
          List.take_append_of_le_length (by simp at hk; omega)]
        rfl
    · rw [Bool.not_eq_true] at hp
      rw [List.filter_cons_of_neg (by simp [hp])] at hk ⊢
      rw [rotationSends, if_neg (by simp [hp]), List.flatten_cons, List.nil_append]
      exact flatten_rotationSends F ops M hk

/-- Shared-group rotation is fair, in either build: from a state reached by subscriptions to
filters as `sub__topic_tokenise` gives them, a run with as many publishes to the group's
filter (of topics with no wildcard level, each of whose calls of `subs__send` returns 0) as
the group has members, in which every other call keeps the group's members, attempts the
members one per publish, in order, each once, and no member on any other call; the group
ends as it began. -/
theorem sharedGroup_rotation_fair {env : Env} {s : Broker} (h : Reachable env TokenOk s)
    (F : List String) (g : String) (ops : List Op) (hrun : FairRun env F g ops s)
    (hm : (ops.filter (publishesTo F)).length = (s.subs (.shared (filterNode F) g)).length) :
    memberSends env (s.subs (.shared (filterNode F) g)) ops s =
        rotationSends F (s.subs (.shared (filterNode F) g)) ops ∧
      (memberSends env (s.subs (.shared (filterNode F) g)) ops s).flatten =
        s.subs (.shared (filterNode F) g) ∧
      (runOps env ops s).subs (.shared (filterNode F) g) = s.subs (.shared (filterNode F) g) := by
  obtain ⟨h₁, h₂⟩ := fair_run F g hrun _ h fun _ => Iff.rfl
  refine ⟨h₁, ?_, by rw [h₂, hm, List.rotate_length]⟩
  rw [h₁, flatten_rotationSends F ops _ hm.le, hm, List.take_length]

unseal String.splitAux in
theorem sharedGroup_rotation_fair_two_members :
    let env : Env := plainEnv true
    let s : Broker := ((Op.subAdd 2 ⟨"$share/g/x", 0, 0⟩ ["", "x"] (some "g")).run env
      ((Op.subAdd 1 ⟨"$share/g/x", 0, 0⟩ ["", "x"] (some "g")).run env openedBroker).2).2
    let pub : Op := .subMessagesQueue (some "c") "x" ["", "x"] 0 false ⟨"", 0, false⟩
    let ops : List Op := [pub, .subAdd 1 ⟨"y", 0, 0⟩ ["", "y"] none, pub]
    memberSends env (s.subs (.shared (filterNode ["", "x"]) "g")) ops s =
        rotationSends ["", "x"] (s.subs (.shared (filterNode ["", "x"]) "g")) ops ∧
      (memberSends env (s.subs (.shared (filterNode ["", "x"]) "g")) ops s).flatten =
        s.subs (.shared (filterNode ["", "x"]) "g") ∧
      (runOps env ops s).subs (.shared (filterNode ["", "x"]) "g") =
        s.subs (.shared (filterNode ["", "x"]) "g") := by
  intro env s pub ops
  have hx : Tokenised ["", "x"] (some "g") := by decide
  have h : Reachable env TokenOk s := .step _ (.step _ (.init initial_openedBroker) hx) hx
  have hpub : plainTopic pub ∧ SendsSucceed env pub s :=
    ⟨⟨by decide, by decide⟩, fun l _ t => subsSend_plainEnv true l _ _ _ _ t⟩
  have hrun : FairRun env ["", "x"] "g" ops s :=
    .cons pub trivial (fun _ => hpub) (fun h => absurd h (by decide)) <|
    .cons _ (show Tokenised ["", "y"] none by decide) (fun h => absurd h (by decide))
      (fun _ l => Iff.of_eq (congrArg (l ∈ ·) (by decide))) <|
    .cons pub trivial (fun _ => ⟨hpub.1, fun l _ t => subsSend_plainEnv true l _ _ _ _ t⟩)
      (fun h => absurd h (by decide)) (.nil _)
  have hm : (ops.filter (publishesTo ["", "x"])).length =
      (s.subs (.shared (filterNode ["", "x"]) "g")).length := by decide
  exact sharedGroup_rotation_fair h ["", "x"] "g" ops hrun hm

end MosquittoSubs.Rotation
