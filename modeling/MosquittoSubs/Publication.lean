import MosquittoSubs.Delivery

set_option autoImplicit false

/-!
# Publish matching is exact

`sub__add_context` walks a filter's levels from the `db.subs` root of its first level,
starting with that level again, so every node below a root ends in its root's key twice.
When no filter starts with a wildcard, the nodes a publish processes are then exactly the
nodes of the filters that match its topic, and when each call of `subs__send` it makes
returns 0 it calls `subs__send` once on each leaf `subs__process` does not pass over and on
the head of each group there, and on nothing else. Every filter `sub__topic_tokenise` gives
is of that kind.
-/

namespace MosquittoSubs.Publication
open Model Publish SysTree Subscribe Unsubscribe Clean Run Frame Invariant Preservation Shape
  SubscribeSpec UnsubscribeSpec CleanSpec Matching Delivery

variable {env : Env} {s s' : Broker}

/-- Every node below a root sits under its root's child keyed as the root, and that key is
not a wildcard. -/
def Rooted (s : Broker) : Prop :=
  ∀ y, (s.hier y).isSome → 2 ≤ y.length → ∃ zs r, y = zs ++ [r, r] ∧ r ≠ "+" ∧ r ≠ "#"

/-- Calls whose subscriptions have `#` only as their filter's last level and no wildcard as
its first: what the matching needs of a filter, whatever its first level. -/
def MatchOk : Op → Int → Prop
  | .subAdd _ _ ts _, _ => hashLast ts ∧ ∀ t0 ∈ ts.head?, t0 ≠ "+" ∧ t0 ≠ "#"
  | _, _ => True

/-- Calls whose subscriptions are to filters as `sub__topic_tokenise` gives them. -/
def TokenOk : Op → Int → Prop
  | .subAdd _ _ ts g, _ => Tokenised ts g
  | _, _ => True

theorem matchOk_of_tokenOk {op : Op} {rc : Int} (h : TokenOk op rc) : MatchOk op rc := by
  cases op with
  | subAdd c sub ts g => exact ⟨h.filterHashLast.1, h.head⟩
  | _ => trivial

/-! ## The nodes a subscription makes -/

theorem isSome_subAddHierEntry {p : Option Addr} {t : String} {b : Option Addr} {y : Addr}
    (he : subAddHierEntry env p t s = (b, s')) (h : (s'.hier y).isSome) :
    (s.hier y).isSome ∨ y = t :: p.getD [] := by
  obtain rfl : (subAddHierEntry env p t s).2 = s' := by rw [he]
  unfold subAddHierEntry at h
  split_ifs at h
  · cases p with
    | some p =>
      by_cases hy : y = t :: p
      · exact .inr hy
      · have hyp : p ≠ t :: p := (List.cons_ne_self t p).symm
        by_cases hp : y = p
        · subst hp
          simp_all
        · simp_all [Function.update_noteq]
    | none =>
      by_cases hy : y = [t]
      · exact .inr hy
      · simp_all [Function.update_noteq]
  · exact .inl h

theorem isSome_addContextWalk (ts : List String) :
    ∀ {a : Addr} {s : Broker} {y : Addr}, ((walkEnd (addContextWalk env a ts s)).hier y).isSome →
      (s.hier y).isSome ∨ y <:+ ts.reverse ++ a ∧ a.length < y.length := by
  induction ts with
  | nil => exact fun h => .inl h
  | cons t ts ih =>
    intro a s y h
    rw [path_cons]
    unfold addContextWalk at h
    split_ifs at h
    · exact .inl h
    split at h
    · rcases ih h with h | ⟨h₁, h₂⟩
      · exact .inl h
      · exact .inr ⟨h₁, by simp at h₂; omega⟩
    · split at h
      · rename_i b s₁ heq
        have hb := subAddHierEntry_addr (congrArg Prod.fst heq)
        simp only [Option.getD_some] at hb
        subst hb
        rcases ih h with h | ⟨h₁, h₂⟩
        · rcases isSome_subAddHierEntry heq h with h | rfl
          · exact .inl h
          · exact .inr ⟨List.suffix_append _ _, by simp⟩
        · exact .inr ⟨h₁, by simp at h₂; omega⟩
      · rename_i s₁ heq
        rcases isSome_subAddHierEntry heq h with h | rfl
        · exact .inl h
        · exact .inr ⟨List.suffix_append _ _, by simp⟩

theorem subAddNormal_hier (hs : Lists env s) (c : ClientRef) (sub : Subscription) (b : Addr) :
    (subAddNormal env c sub b s).2.hier = s.hier := by
  rcases hr : subAddNormal env c sub b s with ⟨rc, s'⟩
  rcases subAddNormal_cases hs hr with ⟨m, -, -, rfl⟩ | ⟨-, hrot⟩ |
    ⟨-, -, t, subs, -, -, hhier, -, -, hrot⟩
  · rfl
  · exact hrot.hier
  · rw [hrot.hier, hhier]

theorem isSome_subAddShared (hs : Inv env s) (c : ClientRef) (sub : Subscription) (b : Addr)
    (g : String) (y : Addr) :
    ((subAddShared env c sub b g s).2.hier y).isSome ↔ (s.hier y).isSome := by
  rcases hr : subAddShared env c sub b g s with ⟨rc, s'⟩
  rcases subAddShared_cases hs hr with ⟨m, -, -, rfl⟩ | ⟨-, hrot⟩ |
    ⟨-, -, l, subs, -, -, hhier, -⟩
  · rfl
  · rw [hrot.hier]
  · rw [hhier]
    by_cases hy : y = b
    · subst hy
      simp
    · rw [Function.update_noteq hy]

theorem isSome_subAddContext (hs : Inv env s) (c : ClientRef) (sub : Subscription) {a : Addr}
    (ha : (s.hier a).isSome) (ts : List String) (g : Option String) {y : Addr}
    (h : ((subAddContext env c sub a ts g s).2.hier y).isSome) :
    (s.hier y).isSome ∨ y <:+ ts.reverse ++ a ∧ a.length < y.length := by
  have hiw := (inv_addContextWalk ts hs ha).1
  refine @isSome_addContextWalk env ts _ _ _ ?_
  unfold subAddContext at h
  split at h
  · rename_i r heq
    rwa [heq]
  · rename_i b s₁ heq
    rw [heq] at hiw ⊢
    split_ifs at h
    · cases g with
      | some g => exact (isSome_subAddShared hiw c sub b g y).mp h
      | none => rwa [show (subAddNormal env c sub b s₁).2.hier = s₁.hier from
          subAddNormal_hier hiw.lists c sub b] at h
    · exact h

theorem isSome_subAdd (hs : Inv env s) (c : ClientRef) (sub : Subscription) (ts : List String)
    (g : Option String) {y : Addr} (h : ((subAdd env c sub ts g s).2.hier y).isSome) :
    (s.hier y).isSome ∨ y <:+ filterNode ts := by
  unfold subAdd at h
  split at h
  · exact .inl h
  · rename_i t0 rest
    split_ifs at h
    · exact .inl h
    have hpath : ∀ {y}, y <:+ (t0 :: rest).reverse ++ [t0] → y <:+ filterNode (t0 :: rest) :=
      fun h => h
    split at h
    · rename_i n hn
      exact (isSome_subAddContext hs c sub (by simp [hn]) _ g h).imp_right fun h => hpath h.1
    · rename_i hn
      obtain ⟨h₁, h₂⟩ := inv_subAddHierEntry_root hs hn
      split at h
      · rename_i a s₁ heq
        rw [heq] at h₁ h₂
        obtain ⟨rfl, ha⟩ := h₂ a rfl
        rcases isSome_subAddContext h₁ c sub ha _ g h with h | h
        · rcases isSome_subAddHierEntry heq h with h | rfl
          · exact .inl h
          · exact .inr (List.suffix_append _ _)
        · exact .inr (hpath h.1)
      · rename_i s₁ heq
        rcases isSome_subAddHierEntry heq h with h | rfl
        · exact .inl h
        · exact .inr (List.suffix_append _ _)

/-! ## The invariant -/

theorem rooted_subAdd (hs : Inv env s) (hr : Rooted s) (c : ClientRef) (sub : Subscription)
    {ts : List String} (h0 : ∀ t0 ∈ ts.head?, t0 ≠ "+" ∧ t0 ≠ "#") (g : Option String) :
    Rooted (subAdd env c sub ts g s).2 := by
  intro y hy hl
  rcases isSome_subAdd hs c sub ts g hy with hy | hy
  · exact hr y hy hl
  · cases ts with
    | nil =>
      obtain rfl := List.suffix_nil.mp hy
      simp at hl
    | cons t0 rest =>
      have hend : [t0, t0] <:+ filterNode (t0 :: rest) := by
        simp [filterNode]
      obtain ⟨zs, rfl⟩ := List.suffix_of_suffix_length_le hend hy hl
      exact ⟨zs, t0, rfl, h0 t0 rfl⟩

theorem rooted_run (hs : Inv env s) (hr : Rooted s) (op : Op) (hok : MatchOk op (op.run env s).1) :
    Rooted (op.run env s).2 := by
  cases op with
  | subAdd c sub ts g => exact rooted_subAdd hs hr c sub hok.2 g
  | subRemove c ts g reason =>
    exact fun y hy => hr y ((subRemove_nodes hs c ts g reason).1 y hy)
  | subCleanSession c => exact fun y hy => hr y ((cleaned_subCleanSession hs c).kept y hy)
  | subMessagesQueue src t ts q r m =>
    exact fun y hy => hr y ((subMessagesQueue_rot env t q r m src ts s).hier ▸ hy)

theorem rooted_reachable (h : Reachable env MatchOk s) : Rooted s := by
  induction h with
  | init hi =>
    intro y hy hl
    obtain ⟨n, hn⟩ := Option.isSome_iff_exists.mp hy
    have := (hi.roots y n hn).1
    omega
  | step op hr hop ih => exact rooted_run (inv_reachable hr) ih op hop

theorem hashLeaf_of_matchOk (h : Reachable env MatchOk s) : HashLeaf s :=
  hashLeaf_reachable (fun op rc hop => by
    cases op with
    | subAdd c sub ts g => exact ⟨hop.1, fun e => (hop.2 "#" e).2 rfl⟩
    | _ => trivial) h

/-! ## The nodes a publish processes -/

theorem filterNode_cons (f : String) (fs : List String) :
    filterNode (f :: fs) = fs.reverse ++ [f, f] := by
  simp [filterNode]

theorem Rooted.key (hr : Rooted s) {fs : List String} {f : String}
    (hb : (s.hier (fs.reverse ++ [f, f])).isSome) : f ≠ "+" ∧ f ≠ "#" := by
  obtain ⟨zs, r, he, hkey⟩ := hr _ hb (by simp)
  obtain rfl : f = r := List.head_eq_of_cons_eq (List.append_inj' he rfl).2
  exact hkey

theorem Rooted.head_eq (hr : Rooted s) {p t0 : String} {P : List String}
    (hb : (s.hier ((p :: P).reverse ++ [t0])).isSome) : p = t0 := by
  obtain ⟨zs, r, he, -⟩ := hr _ hb (by simp)
  simp only [List.reverse_cons, List.append_assoc, List.singleton_append] at he
  have hkeys : [p, t0] = [r, r] := (List.append_inj' he rfl).2
  simp only [List.cons.injEq, and_true] at hkeys
  exact hkeys.1.trans hkeys.2.symm

theorem Rooted.match_head (hr : Rooted s) {f t0 : String} {fs rest : List String}
    (hb : (s.hier (filterNode (f :: fs))).isSome)
    (hm : topicMatches (f :: fs) (t0 :: rest) = true) : f = t0 := by
  rw [filterNode_cons] at hb
  obtain ⟨hp, hhash⟩ := hr.key hb
  rcases (topicMatches_cons_cons _ _ _ _).mp hm with ⟨rfl, -⟩ | ⟨hf | hf, -⟩
  · exact absurd rfl hhash
  · exact absurd hf hp
  · exact hf

theorem mem_queueNodes (ht : Tree s) (hh : HashLeaf s) (hr : Rooted s) (T : List String)
    {b : Addr} :
    b ∈ queueNodes s T ↔ (s.hier b).isSome ∧ ∃ F, b = filterNode F ∧ topicMatches F T = true := by
  cases T with
  | nil =>
    simp only [queueNodes, List.not_mem_nil, false_iff, not_and, not_exists]
    rintro hb F rfl hm
    rcases (topicMatches_nil_right F).mp hm with rfl | rfl
    · simp [filterNode, ht.root] at hb
    · exact (@Rooted.key s hr [] "#" hb).2 rfl
  | cons t0 rest =>
    have hroot : [t0] ≠ [] := List.cons_ne_nil t0 []
    have hsearch : b ∈ searchNodes s [t0] (t0 :: rest) ↔
        (s.hier b).isSome ∧ ∃ F, b = filterNode F ∧ topicMatches F (t0 :: rest) = true := by
      rw [mem_searchNodes ht hh _ hroot]
      constructor
      · rintro ⟨hb, _ | ⟨p, P⟩, hP, rfl, hm⟩
        · exact absurd rfl hP
        · obtain rfl := hr.head_eq hb
          exact ⟨hb, p :: P, rfl, hm⟩
      · rintro ⟨hb, _ | ⟨f, fs⟩, rfl, hm⟩
        · simp at hm
        · obtain rfl := hr.match_head hb hm
          exact ⟨hb, f :: fs, List.cons_ne_nil _ _, rfl, hm⟩
    simp only [queueNodes]
    split_ifs with h0
    · exact hsearch
    · refine ⟨fun h => absurd h (List.not_mem_nil b), fun h => absurd ?_ h0⟩
      obtain ⟨hb, P, -, rfl, -⟩ := (mem_searchNodes ht hh _ hroot).mp (hsearch.mpr h)
      exact hier_of_append ht P.reverse hroot hb

theorem nodup_queueNodes (T : List String) (hp : "+" ∉ T) (hh : "#" ∉ T) :
    (queueNodes s T).Nodup := by
  cases T with
  | nil => exact List.nodup_nil
  | cons t0 rest =>
    simp only [queueNodes]
    split_ifs
    · exact nodup_searchNodes _ hp hh _
    · exact List.nodup_nil

/-! ## The leaves a publish hands over -/

theorem isSome_hier_of_groups {a : Addr} {g : String} (hg : g ∈ s.groups a) :
    (s.hier a).isSome := by
  cases ha : s.hier a with
  | none => simp [Broker.groups, ha] at hg
  | some n => rfl

theorem isSome_hier_of_mem (ht : Tree s) {x : Host} {l : LeafRef} (h : l ∈ s.subs x) :
    (s.hier x.addr).isSome := by
  cases x with
  | normal a =>
    cases ha : s.hier a with
    | none => simp [ht.normalDead a ha] at h
    | some n => simp [Host.addr, ha]
  | shared a g => exact isSome_hier_of_groups ((ht.groups a g).mpr (List.ne_nil_of_mem h))

theorem host_eq_of_mem (hs : Lists env s) {l : LeafRef} {x y : Host} (hx : l ∈ s.subs x)
    (hy : l ∈ s.subs y) : x = y := by
  obtain ⟨leaf, hl, hx⟩ := (hs.listed x l).mp hx
  obtain ⟨leaf', hl', hy⟩ := (hs.listed y l).mp hy
  rw [hl] at hl'
  cases hl'
  exact Option.some.inj (hx.symm.trans hy)

theorem mem_nodeSends {src : String} {b : Addr} {l : LeafRef} :
    l ∈ nodeSends env src s b ↔ (∃ g ∈ s.groups b, (s.subs (.shared b g)).head? = some l) ∨
      (l ∈ s.subs (.normal b) ∧ skips env src s l = false) := by
  simp [nodeSends]

theorem mem_normal_of_mem_loop {src : Option String} {b : Addr} {l : LeafRef}
    (h : l ∈ match src with
      | some src => (s.subs (.normal b)).filter fun l => !skips env src s l
      | none => []) : l ∈ s.subs (.normal b) := by
  cases src with
  | none => simp at h
  | some src => exact (List.mem_filter.mp h).1

theorem host_of_mem_nodeSends {src : Option String} {b : Addr} {l : LeafRef}
    (h : l ∈ nodeSends env src s b) : ∃ x : Host, x.addr = b ∧ l ∈ s.subs x := by
  rcases List.mem_append.mp h with h | h
  · obtain ⟨g, -, hg⟩ := List.mem_filterMap.mp h
    exact ⟨.shared b g, rfl, List.mem_of_mem_head? hg⟩
  · exact ⟨.normal b, rfl, mem_normal_of_mem_loop h⟩

theorem nodup_nodeSends (hs : Inv env s) (src : Option String) (b : Addr) :
    (nodeSends env src s b).Nodup := by
  have hloop : (match src with
      | some src => (s.subs (.normal b)).filter fun l => !skips env src s l
      | none => []).Nodup := by
    cases src with
    | none => exact List.nodup_nil
    | some src => exact (hs.lists.nodup _).filter _
  refine List.nodup_append.mpr ⟨?_, hloop, fun l h₁ h₂ => ?_⟩
  · refine (hs.tree.groupsNodup b).filterMap fun g g' l hg hg' => ?_
    cases host_eq_of_mem hs.lists (List.mem_of_mem_head? hg) (List.mem_of_mem_head? hg')
    rfl
  · obtain ⟨g, -, hg⟩ := List.mem_filterMap.mp h₁
    cases host_eq_of_mem hs.lists (List.mem_of_mem_head? hg) (mem_normal_of_mem_loop h₂)

theorem nodup_flatMap_nodeSends (hs : Inv env s) (src : Option String) {bs : List Addr}
    (hbs : bs.Nodup) : (bs.flatMap (nodeSends env src s)).Nodup := by
  refine List.nodup_flatMap.mpr ⟨fun b _ => nodup_nodeSends hs src b,
    hbs.pairwise_of_forall_ne fun b _ b' _ hne l h₁ h₂ => hne ?_⟩
  obtain ⟨x, rfl, hx⟩ := host_of_mem_nodeSends h₁
  obtain ⟨y, rfl, hy⟩ := host_of_mem_nodeSends h₂
  rw [host_eq_of_mem hs.lists hx hy]

theorem skips_eq_false_iff {src : String} {l : LeafRef} :
    skips env src s l = false ↔ ∃ leaf id, s.leaves l = some leaf ∧
      (env.client leaf.context).id = some id ∧
      ¬(mqttSubOptGetNoLocal leaf.subscriptionOptions ≠ 0 ∧ id = src) := by
  cases hl : s.leaves l with
  | none => simp [skips, hl]
  | some leaf =>
    cases hid : (env.client leaf.context).id with
    | none => simp [skips, hl, hid]
    | some id => simp [skips, hl, hid]

/-- The leaves a publish of `T` from `src` is to hand to `subs__send`, in the words of the
MQTT match: each normal leaf at the node of a matching filter whose client has an id and
that no-local does not exclude, and the head of each group at such a node. -/
def Entitled (env : Env) (src : String) (s : Broker) (T : List String) (l : LeafRef) : Prop :=
  ∃ F, topicMatches F T = true ∧
    ((l ∈ s.subs (.normal (filterNode F)) ∧ ∃ leaf id, s.leaves l = some leaf ∧
        (env.client leaf.context).id = some id ∧
        ¬(mqttSubOptGetNoLocal leaf.subscriptionOptions ≠ 0 ∧ id = src)) ∨
      ∃ g, (s.subs (.shared (filterNode F) g)).head? = some l)

theorem mem_sends_iff (hs : Inv env s) (hh : HashLeaf s) (hr : Rooted s) (src : String)
    (T : List String) (l : LeafRef) :
    l ∈ (queueNodes s T).flatMap (nodeSends env src s) ↔ Entitled env src s T l := by
  simp only [List.mem_flatMap, mem_queueNodes hs.tree hh hr, mem_nodeSends, Entitled,
    ← skips_eq_false_iff]
  constructor
  · rintro ⟨b, ⟨-, F, rfl, hm⟩, ⟨g, -, hg⟩ | hl⟩
    · exact ⟨F, hm, .inr ⟨g, hg⟩⟩
    · exact ⟨F, hm, .inl hl⟩
  · rintro ⟨F, hm, hl | ⟨g, hg⟩⟩
    · exact ⟨_, ⟨isSome_hier_of_mem hs.tree hl.1, F, rfl, hm⟩, .inr hl⟩
    · have hgr := (hs.tree.groups _ g).mpr (List.ne_nil_of_mem (List.mem_of_mem_head? hg))
      exact ⟨_, ⟨isSome_hier_of_groups hgr, F, rfl, hm⟩, .inl ⟨g, hgr, hg⟩⟩

theorem turned_queueNodes_of_match (ht : Tree s) (hh : HashLeaf s) (hr : Rooted s)
    (T : List String) {F : List String} (hm : topicMatches F T = true) (g : String) :
    turned s (queueNodes s T) (.shared (filterNode F) g) =
      (s.subs (.shared (filterNode F) g)).rotate 1 := by
  unfold turned
  split_ifs with h
  · rfl
  · by_cases hg : g ∈ s.groups (filterNode F)
    · exact absurd (mem_turnedHosts.mpr ⟨_, (mem_queueNodes ht hh hr T).mpr
        ⟨isSome_hier_of_groups hg, F, rfl, hm⟩, g, hg, rfl⟩) h
    · rw [not_not.mp ((not_congr (ht.groups _ g)).mp hg)]
      rfl

theorem turned_queueNodes_of_not_match (ht : Tree s) (hh : HashLeaf s) (hr : Rooted s)
    (T : List String) {x : Host}
    (hx : ∀ F g, topicMatches F T = true → x ≠ .shared (filterNode F) g) :
    turned s (queueNodes s T) x = s.subs x := by
  rw [turned, if_neg]
  rw [mem_turnedHosts]
  rintro ⟨b, hb, g, -, rfl⟩
  obtain ⟨-, F, rfl, hm⟩ := (mem_queueNodes ht hh hr T).mp hb
  exact hx F g hm rfl

/-- A publish, in a state reached by subscriptions whose filters have `#` only last and no
wildcard first, of a topic with no wildcard level, with each call of `subs__send` on a leaf
it is to hand over returning 0, calls `subs__send` on exactly those leaves, each once; it
changes neither the trie nor the leaves, turns each group at the node of a matching filter
by one, and changes no other list. -/
theorem subMessagesQueue_exact (h : Reachable env MatchOk s) (src topic : String)
    (T : List String) (qos : UInt8) (retain : Bool) (stored : BaseMsg) (hp : "+" ∉ T)
    (hh : "#" ∉ T)
    (hsend : ∀ l, Entitled env src s T l → ∀ t, (subsSend env l topic qos retain stored t).1 = 0) :
    let s' := (subMessagesQueue env (some src) topic T qos retain stored s).2
    (∃ L, s'.sends = s.sends ++ L ∧ L.Nodup ∧ ∀ l, l ∈ L ↔ Entitled env src s T l) ∧
    s'.hier = s.hier ∧ s'.leaves = s.leaves ∧
    (∀ F g, topicMatches F T = true →
      s'.subs (.shared (filterNode F) g) = (s.subs (.shared (filterNode F) g)).rotate 1) ∧
    ∀ x, (∀ F g, topicMatches F T = true → x ≠ .shared (filterNode F) g) → s'.subs x = s.subs x := by
  have hs := inv_reachable h
  have hhl := hashLeaf_of_matchOk h
  have hr := rooted_reachable h
  have hsent := subMessagesQueue_sent
    (fun l hl => hsend l ((mem_sends_iff hs hhl hr src T l).mp hl)) src hs.tree.groupsNodup T hp hh
    fun b hb l hl => List.mem_flatMap.mpr ⟨b, hb, hl⟩
  refine ⟨⟨_, hsent.sends, nodup_flatMap_nodeSends hs src (nodup_queueNodes T hp hh),
    mem_sends_iff hs hhl hr src T⟩, hsent.hier, hsent.leaves, fun F g hm => ?_, fun x hx => ?_⟩
  · rw [hsent.subs, turned_queueNodes_of_match hs.tree hhl hr T hm]
  · rw [hsent.subs, turned_queueNodes_of_not_match hs.tree hhl hr T hx]

theorem subsSend_plainEnv (sys : Bool) (l : LeafRef) (topic : String) (qos : UInt8)
    (retain : Bool) (stored : BaseMsg) (t : Broker) :
    (subsSend (plainEnv sys) l topic qos retain stored t).1 = 0 := by
  cases hl : t.leaves l <;> simp [subsSend, hl, plainEnv, MosqErr.success, MosqErr.aclDenied]

theorem subMessagesQueue_exact_after_subscribe :
    let s := ((Op.subAdd 1 ⟨"a", 0, 0⟩ ["", "a"] none).run (plainEnv false) openedBroker).2
    let s' := (subMessagesQueue (plainEnv false) (some "b") "a" ["", "a"] 0 false ⟨"", 0, false⟩
      s).2
    (∃ L, s'.sends = s.sends ++ L ∧ L.Nodup ∧
      ∀ l, l ∈ L ↔ Entitled (plainEnv false) "b" s ["", "a"] l) ∧
    s'.hier = s.hier ∧ s'.leaves = s.leaves ∧
    (∀ F g, topicMatches F ["", "a"] = true →
      s'.subs (.shared (filterNode F) g) = (s.subs (.shared (filterNode F) g)).rotate 1) ∧
    ∀ x, (∀ F g, topicMatches F ["", "a"] = true → x ≠ .shared (filterNode F) g) →
      s'.subs x = s.subs x :=
  subMessagesQueue_exact
    (.step (.subAdd 1 ⟨"a", 0, 0⟩ ["", "a"] none) (.init initial_openedBroker)
      ⟨by decide, by decide⟩)
    "b" "a" ["", "a"] 0 false ⟨"", 0, false⟩ (by decide) (by decide)
    fun l _ t => subsSend_plainEnv false l _ _ _ _ t

/-! ## A failed delivery -/

/-- `sub__search` returns as soon as `subs__process` reports a failed `subs__send`. Client 1
at `$x/y` and client 2 at `$x/+` both match a publish of `$x/y`; when the ACL check fails
for client 1, whose leaf the literal block reaches first, the search returns before the `+`
block and `subs__send` never sees client 2's leaf, which it does when every check passes. -/
theorem subMessagesQueue_stops_at_failure :
    let env : Env := { plainEnv false with aclCheck := fun c _ _ => if c = 1 then 1 else MosqErr.success }
    let s := ((Op.subAdd 2 ⟨"$x/+", 0, 0⟩ ["$x", "+"] none).run env
      ((Op.subAdd 1 ⟨"$x/y", 0, 0⟩ ["$x", "y"] none).run env emptyBroker).2).2
    Reachable env MatchOk s ∧ s.sends = [] ∧
      (s.leaves 3).map (·.context) = some 1 ∧ (s.leaves 6).map (·.context) = some 2 ∧
      (subMessagesQueue env (some "c") "$x/y" ["$x", "y"] 0 false ⟨"", 0, false⟩ s).2.sends = [3] ∧
      (subMessagesQueue (plainEnv false) (some "c") "$x/y" ["$x", "y"] 0 false ⟨"", 0, false⟩
        s).2.sends = [3, 6] :=
  ⟨.step _ (.step _ (.init initial_emptyBroker) ⟨by simp [hashLast], by decide⟩)
    ⟨by simp [hashLast], by decide⟩, by decide, by decide, by decide, by decide, by decide⟩

/-! ## The return code -/

/-- Two states that hold no subscription, the empty engine and the engine after a subscribe
to `$x` and its unsubscribe (which keeps the root `$x`), give different codes for a publish
of `$x`: `MOSQ_ERR_SUCCESS` where there is no root, `MOSQ_ERR_NO_SUBSCRIBERS` where there is. -/
theorem subMessagesQueue_code_depends_on_root :
    let env : Env := plainEnv false
    let s := ((Op.subRemove 1 ["$x"] none 0).run env
      ((Op.subAdd 1 ⟨"$x", 0, 0⟩ ["$x"] none).run env emptyBroker).2).2
    Reachable env MatchOk s ∧ (∀ x, s.subs x = [] ∧ emptyBroker.subs x = []) ∧
      (subMessagesQueue env (some "c") "$x" ["$x"] 0 false ⟨"", 0, false⟩ emptyBroker).1 =
        MosqErr.success ∧
      (subMessagesQueue env (some "c") "$x" ["$x"] 0 false ⟨"", 0, false⟩ s).1 =
        MosqErr.noSubscribers := by
  intro env s
  have h : Reachable env MatchOk s :=
    .step _ (.step _ (.init initial_emptyBroker) ⟨by simp [hashLast], by decide⟩) trivial
  have hl : ∀ l, s.leaves l = none := fun l =>
    if hl : l < s.allocs then (by decide : ∀ l < s.allocs, s.leaves l = none) l hl
    else (inv_reachable h).lists.fresh l (Nat.le_of_not_lt hl)
  refine ⟨h, fun x => ⟨List.eq_nil_iff_forall_not_mem.mpr fun l hx => ?_, rfl⟩, by decide,
    by decide⟩
  obtain ⟨leaf, hleaf, -⟩ := ((inv_reachable h).lists.listed x l).mp hx
  simp [hl] at hleaf

/-! ## Wildcard levels in the topic -/

/-- A topic level `+` meets both the literal block and the `+` block of `sub__search` at the
child `+`: a publish of `a/+` to the state `db__open` leaves after one subscription to `a/+`
hands its leaf to `subs__send` twice. -/
theorem subMessagesQueue_plus_level_twice :
    let env : Env := plainEnv false
    let s := ((Op.subAdd 1 ⟨"a/+", 0, 0⟩ ["", "a", "+"] none).run env openedBroker).2
    Reachable env TokenOk s ∧ s.sends = [] ∧
      s.subs (.normal (filterNode ["", "a", "+"])) = [3] ∧
      (subMessagesQueue env (some "c") "a/+" ["", "a", "+"] 0 false ⟨"", 0, false⟩ s).2.sends =
        [3, 3] :=
  ⟨.step _ (.init initial_openedBroker) (show Tokenised ["", "a", "+"] none by decide), by decide,
    by decide, by decide⟩

end MosquittoSubs.Publication
