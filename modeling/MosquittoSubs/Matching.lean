import MosquittoSubs.CleanSpec

set_option autoImplicit false

/-!
# What `sub__search` matches

The MQTT match of a filter against a topic, in the spec's words, and the nodes
`sub__search` hands to `subs__process` when none of its blocks returns early, as a function
of the trie alone. Below a node that is not a root, in a trie whose `#` nodes have no
children, those nodes are exactly the nodes whose path from it matches the remaining
topic, each once.
-/

namespace MosquittoSubs.Matching
open Model Publish Invariant Shape SubscribeSpec

/-- The MQTT match of a filter's levels against a topic's: `match([],[])`,
`match(['#'], T')` for every `T'`, and `match(f::F', t::T')` iff `f` is `+` or `t` and
`match(F', T')`. -/
def topicMatches : List String → List String → Bool
  | [], [] => true
  | ["#"], _ => true
  | f :: fs, t :: ts => (f == "+" || f == t) && topicMatches fs ts
  | _, _ => false

@[simp] theorem topicMatches_nil_left (ts : List String) : topicMatches [] ts = ts.isEmpty := by
  cases ts <;> rfl

theorem topicMatches_nil_right (fs : List String) :
    topicMatches fs [] = true ↔ fs = [] ∨ fs = ["#"] := by
  match fs with
  | [] => simp [topicMatches]
  | ["#"] => simp [topicMatches]
  | [f] => by_cases hf : f = "#" <;> simp [topicMatches, hf]
  | _ :: _ :: _ => simp [topicMatches]

theorem topicMatches_cons_cons (f t : String) (fs ts : List String) :
    topicMatches (f :: fs) (t :: ts) = true ↔
      f = "#" ∧ fs = [] ∨ (f = "+" ∨ f = t) ∧ topicMatches fs ts = true := by
  by_cases h : f = "#" ∧ fs = []
  · obtain ⟨rfl, rfl⟩ := h
    simp [topicMatches]
  · rw [topicMatches.eq_3 f fs t ts fun h₁ h₂ => h ⟨h₁, h₂⟩]
    simp [h]

example : topicMatches ["a", "+", "#"] ["a", "b", "c", "d"] = true := by decide
example : topicMatches ["a", "#"] ["a"] = true := by decide
example : topicMatches ["a", "+"] ["a"] = false := by decide

/-! ## The nodes the search processes -/

/-- The `#` child of `a`, which the `#` block of `sub__search` processes when it has no
children. -/
def hashNodes (s : Broker) (a : Addr) : List Addr :=
  if (s.hier ("#" :: a)).isSome ∧ s.children ("#" :: a) = [] then ["#" :: a] else []

/-- The nodes `sub__search` at `a` on the levels `ts` hands to `subs__process`, in its order,
when no block returns early: the literal child and the `+` child, each searched on the
remaining levels and processed itself at the last level, then the `#` child. -/
def searchNodes (s : Broker) : Addr → List String → List Addr
  | a, [] => hashNodes s a
  | a, t :: rest =>
    let branch (b : Addr) : List Addr :=
      if (s.hier b).isSome then searchNodes s b rest ++ (if rest.isEmpty then [b] else []) else []
    branch (t :: a) ++ branch ("+" :: a) ++ hashNodes s a

/-- The nodes the literal or the `+` block processes at the child `b`: those below it, then
`b` itself at the last level. -/
def branchNodes (s : Broker) (b : Addr) (rest : List String) : List Addr :=
  if (s.hier b).isSome then searchNodes s b rest ++ (if rest.isEmpty then [b] else []) else []

theorem searchNodes_cons (s : Broker) (a : Addr) (t : String) (rest : List String) :
    searchNodes s a (t :: rest) =
      branchNodes s (t :: a) rest ++ branchNodes s ("+" :: a) rest ++ hashNodes s a :=
  rfl

/-- The nodes `sub__messages_queue` processes: those of the search on the whole topic from
the `db.subs` root of its first level, when there is one. -/
def queueNodes (s : Broker) : List String → List Addr
  | [] => []
  | t0 :: rest => if (s.hier [t0]).isSome then searchNodes s [t0] (t0 :: rest) else []

/-- What `subs__process` at the node `b` hands to `subs__send`: the head of each of the
node's groups, in the node's order, then, when there is a source id, each leaf of the node's
list that it does not pass over. -/
def nodeSends (env : Env) (src : Option String) (s : Broker) (b : Addr) : List LeafRef :=
  (s.groups b).filterMap (fun g => (s.subs (.shared b g)).head?) ++
    match src with
    | some src => (s.subs (.normal b)).filter fun l => !skips env src s l
    | none => []

variable {s : Broker}

theorem mem_hashNodes {a b : Addr} :
    b ∈ hashNodes s a ↔ b = "#" :: a ∧ (s.hier ("#" :: a)).isSome ∧ s.children ("#" :: a) = [] := by
  unfold hashNodes
  split_ifs with h <;> simp [h]

theorem mem_branchNodes {b c : Addr} {rest : List String} :
    b ∈ branchNodes s c rest ↔
      (s.hier c).isSome ∧ (b ∈ searchNodes s c rest ∨ rest = [] ∧ b = c) := by
  unfold branchNodes
  split_ifs with h₁ h₂ <;> simp_all

theorem mem_searchNodes_cons {a b : Addr} {t : String} {rest : List String} :
    b ∈ searchNodes s a (t :: rest) ↔
      (∃ c ∈ [t, "+"], (s.hier (c :: a)).isSome ∧
        (b ∈ searchNodes s (c :: a) rest ∨ rest = [] ∧ b = c :: a)) ∨ b ∈ hashNodes s a := by
  simp only [searchNodes_cons, List.mem_append, mem_branchNodes, List.mem_cons,
    List.mem_singleton, List.not_mem_nil, or_false, exists_eq_or_imp, exists_eq_left]

theorem below_of_mem_searchNodes (ts : List String) :
    ∀ {a b : Addr}, b ∈ searchNodes s a ts → ∃ P, P ≠ [] ∧ b = P.reverse ++ a := by
  induction ts with
  | nil =>
    intro a b h
    obtain ⟨rfl, -⟩ := mem_hashNodes.mp h
    exact ⟨["#"], by simp, rfl⟩
  | cons t rest ih =>
    intro a b h
    rcases mem_searchNodes_cons.mp h with ⟨c, -, -, hb | ⟨-, rfl⟩⟩ | h
    · obtain ⟨P, -, rfl⟩ := ih hb
      exact ⟨c :: P, by simp, by simp⟩
    · exact ⟨[c], by simp, rfl⟩
    · obtain ⟨rfl, -⟩ := mem_hashNodes.mp h
      exact ⟨["#"], by simp, rfl⟩


theorem mem_searchNodes (ht : Tree s) (hh : HashLeaf s) (ts : List String) :
    ∀ {a b : Addr}, a ≠ [] → (b ∈ searchNodes s a ts ↔
      (s.hier b).isSome ∧ ∃ P, P ≠ [] ∧ b = P.reverse ++ a ∧ topicMatches P ts = true) := by
  induction ts with
  | nil =>
    intro a b ha
    rw [searchNodes, mem_hashNodes]
    constructor
    · rintro ⟨rfl, hb, -⟩
      exact ⟨hb, ["#"], by simp, rfl, rfl⟩
    · rintro ⟨hb, P, hP, rfl, hm⟩
      obtain rfl : P = ["#"] := ((topicMatches_nil_right P).mp hm).resolve_left hP
      exact ⟨rfl, hb, hh a⟩
  | cons t rest ih =>
    intro a b ha
    rw [mem_searchNodes_cons, mem_hashNodes]
    constructor
    · rintro (⟨c, hc, hca, hb | ⟨rfl, rfl⟩⟩ | ⟨rfl, hb, -⟩)
      · obtain ⟨hb, P, hP, rfl, hm⟩ := (ih (List.cons_ne_nil c a)).mp hb
        refine ⟨hb, c :: P, by simp, by simp, (topicMatches_cons_cons _ _ _ _).mpr (.inr ⟨?_, hm⟩)⟩
        simp only [List.mem_cons, List.mem_singleton, List.not_mem_nil, or_false] at hc
        exact hc.symm
      · refine ⟨hca, [c], by simp, rfl, (topicMatches_cons_cons _ _ _ _).mpr (.inr ⟨?_, rfl⟩)⟩
        simp only [List.mem_cons, List.mem_singleton, List.not_mem_nil, or_false] at hc
        exact hc.symm
      · exact ⟨hb, ["#"], by simp, rfl, rfl⟩
    · rintro ⟨hb, _ | ⟨f, P⟩, hP, rfl, hm⟩
      · exact absurd rfl hP
      rcases (topicMatches_cons_cons _ _ _ _).mp hm with ⟨rfl, rfl⟩ | ⟨hf, hm⟩
      · exact .inr ⟨rfl, hb, hh a⟩
      have hfa : (s.hier (f :: a)).isSome :=
        hier_of_append ht P.reverse (List.cons_ne_nil f a) (by simpa using hb)
      refine .inl ⟨f, by simpa using hf.symm, hfa, ?_⟩
      by_cases hP' : P = []
      · subst hP'
        exact .inr ⟨by simpa using hm, rfl⟩
      · exact .inl ((ih (List.cons_ne_nil f a)).mpr ⟨by simpa using hb, P, hP', by simp, hm⟩)

theorem key_eq_of_append {P Q : List String} {c d : String} {a : Addr}
    (h : P ++ c :: a = Q ++ d :: a) : c = d :=
  List.head_eq_of_cons_eq (List.append_inj' h rfl).2

theorem suffix_of_mem_branchNodes {a b : Addr} {c : String} {rest : List String}
    (h : b ∈ branchNodes s (c :: a) rest) : ∃ P, b = P ++ c :: a := by
  rcases (mem_branchNodes.mp h).2 with h | ⟨-, rfl⟩
  · obtain ⟨P, -, rfl⟩ := below_of_mem_searchNodes rest h
    exact ⟨P.reverse, rfl⟩
  · exact ⟨[], rfl⟩

theorem nodup_branchNodes {b : Addr} {rest : List String} (ih : (searchNodes s b rest).Nodup) :
    (branchNodes s b rest).Nodup := by
  unfold branchNodes
  split_ifs
  · refine List.nodup_append.mpr ⟨ih, List.nodup_singleton _, fun x hx hx' => ?_⟩
    obtain ⟨P, hP, rfl⟩ := below_of_mem_searchNodes rest hx
    exact hP (by simpa using List.mem_singleton.mp hx')
  · simpa using ih
  · exact List.nodup_nil

theorem nodup_searchNodes (ts : List String) (hp : "+" ∉ ts) (hh : "#" ∉ ts) :
    ∀ a : Addr, (searchNodes s a ts).Nodup := by
  induction ts with
  | nil =>
    intro a
    unfold searchNodes hashNodes
    split_ifs <;> simp
  | cons t rest ih =>
    intro a
    simp only [List.mem_cons, not_or] at hp hh
    have hhash : ∀ b ∈ hashNodes s a, b = [] ++ "#" :: a := fun b h => (mem_hashNodes.mp h).1
    rw [searchNodes_cons]
    refine List.nodup_append.mpr ⟨List.nodup_append.mpr ⟨nodup_branchNodes (ih hp.2 hh.2 _),
      nodup_branchNodes (ih hp.2 hh.2 _), fun b h₁ h₂ => ?_⟩, ?_, fun b h₁ h₂ => ?_⟩
    · obtain ⟨P, rfl⟩ := suffix_of_mem_branchNodes h₁
      obtain ⟨Q, hQ⟩ := suffix_of_mem_branchNodes h₂
      exact Ne.symm hp.1 (key_eq_of_append hQ)
    · unfold hashNodes
      split_ifs <;> simp
    · have hb := hhash b h₂
      rcases List.mem_append.mp h₁ with h₁ | h₁
      · obtain ⟨P, rfl⟩ := suffix_of_mem_branchNodes h₁
        exact hh.1 (key_eq_of_append hb).symm
      · obtain ⟨P, rfl⟩ := suffix_of_mem_branchNodes h₁
        exact absurd (key_eq_of_append hb).symm (by decide)

end MosquittoSubs.Matching
