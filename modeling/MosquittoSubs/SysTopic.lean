import MosquittoSubs.Publication

set_option autoImplicit false

/-!
# The `$SYS/broker/subscribed_topics` buffer

`sub__build_full_topic(N, 0)` climbs from `N` while the parent has a non-empty topic, sizes
the buffer at the top of that chain and writes one level on each return. The buffer's length
is the sum of `topic_len + 1` over the chain; each write starts where the last one ended, so
`len - pos` is the room left and never wraps, and every write has room for its text except
the top's `/` when the chain is `N` alone. The text is the chain's levels joined by `/`. The
chain stops at the first empty level, and for a filter whose first level starts with `$` it
runs up to the `db.subs` root, whose key `sub__add_context` has repeated below it.
-/

namespace MosquittoSubs.SysTopic
open Model Run Subscribe SysTree Invariant SubscribeSpec

/-- The keys of the nodes `sub__build_full_topic` visits from `a`, `a`'s first: it climbs
while `branch->parent && branch->parent->topic_len > 0`. -/
def chain : Addr → List String
  | [] => []
  | t :: p => t :: if climbs p then chain p else []

/-- The sum of `topic_len + 1` over the visited nodes. -/
def chainLength (a : Addr) : Nat := ((chain a).map (·.length + 1)).sum

/-- The visited keys from the top of the chain down, joined by `/`. -/
def chainText : Addr → List Char
  | [] => []
  | t :: p => if climbs p then chainText p ++ '/' :: t.toList else t.toList

@[simp] theorem length_toList (t : String) : t.toList.length = t.length := rfl

theorem chain_climbs {t : String} {p : Addr} (hp : climbs p = true) :
    chain (t :: p) = t :: chain p := by
  simp [chain, hp]

theorem chain_top {t : String} {p : Addr} (hp : climbs p = false) : chain (t :: p) = [t] := by
  simp [chain, hp]

theorem chainLength_climbs {t : String} {p : Addr} (hp : climbs p = true) :
    chainLength (t :: p) = t.length + 1 + chainLength p := by
  simp [chainLength, chain_climbs hp]

theorem chainLength_top {t : String} {p : Addr} (hp : climbs p = false) :
    chainLength (t :: p) = t.length + 1 := by
  simp [chainLength, chain_top hp]

theorem ne_nil_of_climbs {p : Addr} (hp : climbs p = true) : p ≠ [] := by
  rintro rfl
  simp [climbs] at hp

theorem chainText_length (a : Addr) (ha : a ≠ []) :
    (chainText a).length + 1 = chainLength a := by
  induction a with
  | nil => exact absurd rfl ha
  | cons t p ih =>
    cases hp : climbs p
    · simp [chainText, hp, chainLength_top hp]
    · have := ih (ne_nil_of_climbs hp)
      simp only [chainText, hp, if_true, List.length_append, List.length_cons, length_toList,
        chainLength_climbs hp]
      omega

/-! ## The writes -/

theorem writeAt_append (P Q cs : List Char) (h : cs.length ≤ Q.length) :
    writeAt (P ++ Q) P.length cs = P ++ cs ++ Q.drop cs.length := by
  induction cs generalizing P Q with
  | nil => simp [writeAt]
  | cons c cs ih =>
    obtain ⟨q, Q, rfl⟩ := List.exists_cons_of_ne_nil (List.ne_nil_of_length_pos
      (Nat.lt_of_lt_of_le (Nat.succ_pos _) h))
    rw [writeAt, List.set_append_right _ _ le_rfl, Nat.sub_self, List.set_cons_zero]
    simpa using ih (P ++ [c]) Q (by simpa using h)

theorem snprintf_room (P Q out : List Char) (h : out.length ≤ Q.length) (hQ : 0 < Q.length) :
    (snprintf (P ++ Q) P.length Q.length out).1 =
      P ++ out.take (Q.length - 1) ++ '\x00' :: Q.drop (min (Q.length - 1) out.length + 1) := by
  rw [snprintf, if_neg (by omega), writeAt_append P Q _ (by simp; omega)]
  simp

theorem sizeSub_of_le {a b : Nat} (hba : b ≤ a) (ha : a < 2 ^ 64) : sizeSub a b = a - b := by
  unfold sizeSub
  rw [Int.emod_eq_of_lt (by omega) (by omega)]
  omega

theorem buffer_top (t : String) (len : Nat) :
    (snprintf (List.replicate (len + (t.length + 1)) '\x00') 0 (len + (t.length + 1))
      (t.toList ++ ['/'])).1 =
      t.toList ++ if len = 0 then ['\x00'] else '/' :: List.replicate len '\x00' := by
  have h := snprintf_room [] (List.replicate (len + (t.length + 1)) '\x00') (t.toList ++ ['/'])
    (by simp) (by simp)
  simp only [List.nil_append, List.length_nil, List.length_replicate] at h
  rw [h]
  rcases Nat.eq_zero_or_pos len with rfl | hl
  · simp [List.take_append_of_le_length]
  · obtain ⟨k, rfl⟩ := Nat.exists_eq_add_of_lt hl
    rw [List.take_of_length_le (by simp; omega), min_eq_right (by simp; omega)]
    simp [List.drop_replicate, List.replicate_succ]
    omega

theorem buffer_below (pre : List Char) (t : String) (len : Nat) :
    (snprintf (pre ++ List.replicate (len + (t.length + 1)) '\x00') pre.length
      (len + (t.length + 1)) (if len = 0 then t.toList else t.toList ++ ['/'])).1 =
      pre ++ t.toList ++ if len = 0 then ['\x00'] else '/' :: List.replicate len '\x00' := by
  have h := snprintf_room pre (List.replicate (len + (t.length + 1)) '\x00')
    (if len = 0 then t.toList else t.toList ++ ['/']) (by split_ifs <;> simp; omega)
    (by simp)
  simp only [List.length_replicate] at h
  rw [h]
  split_ifs with hl
  · subst hl
    simp
  · obtain ⟨k, rfl⟩ := Nat.exists_eq_succ_of_ne_zero hl
    rw [List.take_of_length_le (by simp; omega), min_eq_right (by simp; omega)]
    simp [List.drop_replicate, List.replicate_succ]
    omega

/-! ## The buffer -/

theorem isSome_subBuildFullTopic (env : Env) (a : Addr) (len : Nat) (s : Broker) :
    (subBuildFullTopic env a len s).1.isSome ↔
      a ≠ [] ∧ env.allocOk s.allocs = true ∧ env.allocOk (s.allocs + 1) = true := by
  induction a generalizing len with
  | nil => simp [subBuildFullTopic]
  | cons t p ih =>
    unfold subBuildFullTopic
    cases hp : climbs p
    · simp only [hp, Bool.false_eq_true, if_false]
      split_ifs <;> simp_all
    · simp only [hp, if_true]
      have h := ih (len + (t.length + 1))
      rcases hr : subBuildFullTopic env p (len + (t.length + 1)) s with ⟨_ | tb, s₁⟩ <;>
        simp_all [ne_nil_of_climbs hp]

/-- Every call `sub__build_full_topic(branch, len)` that returns a buffer leaves it of length
`len` plus the sum of `topic_len + 1` over the chain it visits, with `pos` at that sum, so
that `len - pos` is `len`, the room its caller writes into, without wrapping. The buffer holds
the chain's levels joined by `/`, then a `/` and `len` NULs when `len > 0`, or one NUL when
`len = 0`: each write below the top has room for its text and its NUL, and the top's text
`topic/` loses its `/` exactly when `len = 0`, that is when the chain is `branch` alone. This
holds when the buffer's length is a `size_t`, and a buffer is returned exactly when both
allocations succeed. -/
theorem subBuildFullTopic_exact (env : Env) (a : Addr) (len : Nat) (s : Broker)
    (hfit : len + chainLength a < 2 ^ 64) :
    ((subBuildFullTopic env a len s).1.isSome ↔
      a ≠ [] ∧ env.allocOk s.allocs = true ∧ env.allocOk (s.allocs + 1) = true) ∧
    ∀ tb ∈ (subBuildFullTopic env a len s).1,
      tb.len = len + ((chain a).map (·.length + 1)).sum ∧ tb.pos = chainLength a ∧
      sizeSub tb.len tb.pos = len ∧
      tb.buffer = chainText a ++ if len = 0 then ['\x00'] else '/' :: List.replicate len '\x00' := by
  refine ⟨isSome_subBuildFullTopic env a len s, ?_⟩
  induction a generalizing len s with
  | nil => simp [subBuildFullTopic]
  | cons t p ih =>
    intro tb htb
    unfold subBuildFullTopic at htb
    dsimp only at htb
    cases hp : climbs p
    · -- the top of the chain: allocate and write `topic/`
      rw [chainLength_top hp] at hfit ⊢
      simp only [hp, Bool.false_eq_true, if_false] at htb
      split_ifs at htb <;> simp only [Option.mem_def, Option.some.injEq, reduceCtorEq] at htb
      subst htb
      refine ⟨by simp [chain_top hp], by simp [snprintf], ?_, ?_⟩
      · have hpos : (snprintf (List.replicate (len + (t.length + 1)) '\x00') 0
            (len + (t.length + 1)) (t.toList ++ ['/'])).2 = t.length + 1 := by
          simp [snprintf]
        dsimp only
        rw [hpos, sizeSub_of_le (by omega) (by omega)]
        omega
      · simp only [buffer_top, chainText, hp, Bool.false_eq_true, if_false]
    · -- a level below the top: the parent's text, then this level
      rw [chainLength_climbs hp] at hfit ⊢
      simp only [hp, if_true] at htb
      rcases hr : subBuildFullTopic env p (len + (t.length + 1)) s with ⟨_ | tb', s₁⟩
      · simp [hr] at htb
      simp only [hr, Option.mem_def, Option.some.injEq] at htb
      subst htb
      obtain ⟨hlen, hpos, -, hbuf⟩ := ih (len + (t.length + 1)) s (by omega) tb' (by simp [hr])
      have hlen' : tb'.len = len + (t.length + 1) + chainLength p := hlen
      have htext := chainText_length p (ne_nil_of_climbs hp)
      have hbuf' : tb'.buffer =
          (chainText p ++ ['/']) ++ List.replicate (len + (t.length + 1)) '\x00' := by
        rw [hbuf, if_neg (by omega)]
        simp
      have hoff : tb'.pos = (chainText p ++ ['/']).length := by
        simp only [List.length_append, List.length_singleton]
        omega
      have hroom : sizeSub tb'.len tb'.pos = len + (t.length + 1) := by
        rw [sizeSub_of_le (by omega) (by omega)]
        omega
      refine ⟨?_, ?_, ?_, ?_⟩
      · simp only [chain_climbs hp, List.map_cons, List.sum_cons]
        rw [hlen]
        omega
      · simp only
        omega
      · simp only
        rw [sizeSub_of_le (by omega) (by omega)]
        omega
      · simp only
        rw [hroom, hbuf', hoff, buffer_below]
        simp [chainText, hp]

theorem subBuildFullTopic_exact_filter :
    0 + chainLength (filterNode ["", "a", "b"]) < 2 ^ 64 ∧
    (subBuildFullTopic (plainEnv true) (filterNode ["", "a", "b"]) 0 openedBroker).1.isSome ∧
    (((subBuildFullTopic (plainEnv true) (filterNode ["", "a", "b"]) 0 openedBroker).1.isSome ↔
      filterNode ["", "a", "b"] ≠ [] ∧ (plainEnv true).allocOk openedBroker.allocs = true ∧
        (plainEnv true).allocOk (openedBroker.allocs + 1) = true) ∧
    ∀ tb ∈ (subBuildFullTopic (plainEnv true) (filterNode ["", "a", "b"]) 0 openedBroker).1,
      tb.len = 0 + ((chain (filterNode ["", "a", "b"])).map (·.length + 1)).sum ∧
      tb.pos = chainLength (filterNode ["", "a", "b"]) ∧ sizeSub tb.len tb.pos = 0 ∧
      tb.buffer = chainText (filterNode ["", "a", "b"]) ++
        if 0 = 0 then ['\x00'] else '/' :: List.replicate 0 '\x00') :=
  ⟨by decide, by decide, subBuildFullTopic_exact (plainEnv true) _ 0 openedBroker (by decide)⟩

/-! ## The topic it names -/

/-- The chain stops at the first empty level and, for a filter whose first level starts with
`$`, climbs to the `db.subs` root, whose key `sub__add_context` repeated below it. A
subscription to `$SYS/x` is named `$SYS/$SYS/x`, and one to `a//b` (levels `""`, `a`, `""`,
`b` after the tokenizer's leading empty level) is named `b`. -/
theorem subBuildFullTopic_misnames :
    let env : Env := plainEnv true
    (subAdd env 1 ⟨"$SYS/x", 0, 0⟩ ["$SYS", "x"] none emptyBroker).2.subs
        (.normal (filterNode ["$SYS", "x"])) ≠ [] ∧
      (∀ s, (subBuildFullTopic env (filterNode ["$SYS", "x"]) 0 s).1.map (cString ·.buffer) =
        some "$SYS/$SYS/x") ∧
      (subAdd env 1 ⟨"a//b", 0, 0⟩ ["", "a", "", "b"] none emptyBroker).2.subs
        (.normal (filterNode ["", "a", "", "b"])) ≠ [] ∧
      ∀ s, (subBuildFullTopic env (filterNode ["", "a", "", "b"]) 0 s).1.map (cString ·.buffer) =
        some "b" :=
  ⟨subs_subAdd_ne_nil (Inv.initial initial_emptyBroker) (by decide) (.inl (by decide)),
    fun _ => rfl,
    subs_subAdd_ne_nil (Inv.initial initial_emptyBroker) (by decide) (.inl (by decide)),
    fun _ => rfl⟩

end MosquittoSubs.SysTopic
