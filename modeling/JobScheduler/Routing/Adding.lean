import JobScheduler.Routing.Trie

/-!
# When rules can be added

`add` goes down to the first child for each piece of a rule, and throws where an earlier rule ends
at the node it comes to.  Seen this way a trie is a function from paths to rules, and adding is an
update of that function.

## Main definitions

* `ruleAt`, `putAt` — the rule at the end of a path, and what puts it there.
* `Apart` — the rules of a table are cut, no two of them alike.

## Main results

* `ruleAt_putAt` — the rule stands at its path, and the others where they stood.
* `addAll_isOk_iff` — a table is accepted when its rules are apart.
* `trie_correct` — **and then the first rule that matches is found.**
-/

namespace JobScheduler
namespace Routing

open CText

/-! ### Children -/

/-- The first child for a piece, or the node that `add_child_node` makes. -/
def Nodes.child (p : RulePiece) : Nodes → ℕ × Nodes
  | .nil => (0, .nil)
  | .cons label ruleIndex children siblings =>
    if label.isFor p then (ruleIndex, children) else siblings.child p

/-- That child, replaced. -/
def Nodes.put (p : RulePiece) (node : ℕ × Nodes) : Nodes → Nodes
  | .nil => .cons p.label node.1 node.2 .nil
  | .cons label ruleIndex children siblings =>
    if label.isFor p then .cons label node.1 node.2 siblings
    else .cons label ruleIndex children (siblings.put p node)

section

variable {p q : RulePiece} {node : ℕ × Nodes}

theorem isFor_label (p : RulePiece) : p.label.isFor p = true := by
  cases p <;> simp [RulePiece.label, Label.isFor]

/-- A child is the one for one piece. -/
theorem isFor_inj {label : Label} (hp : p ≠ .char 0) (hq : q ≠ .char 0)
    (h : label.isFor p = true) (h' : label.isFor q = true) : p = q := by
  cases label <;> cases p <;> cases q <;> simp_all [Label.isFor]

theorem step_eq (p : RulePiece) (f : ℕ × Nodes → Except Fault (ℕ × Nodes)) (nodes : Nodes) :
    nodes.step p f = (f (nodes.child p)).map (nodes.put p ·) := by
  induction nodes with
  | nil =>
    rw [Nodes.step, Nodes.child]
    cases f (0, .nil) <;> rfl
  | cons label ruleIndex children siblings _ ih =>
    rw [Nodes.step, Nodes.child]
    split
    · next hfor =>
      simp only [Nodes.put, if_pos hfor]
      cases f (ruleIndex, children) <;> rfl
    · next hfor =>
      simp only [Nodes.put, if_neg hfor, ih]
      cases f (siblings.child p) <;> rfl

@[simp] theorem child_put_self (nodes : Nodes) : (nodes.put p node).child p = node := by
  induction nodes with
  | nil => simp [Nodes.put, Nodes.child, isFor_label]
  | cons label ruleIndex children siblings _ ih =>
    rw [Nodes.put]
    split
    · next hfor => rw [Nodes.child, if_pos hfor]
    · next hfor => rw [Nodes.child, if_neg hfor, ih]

theorem child_put_of_ne (hp : p ≠ .char 0) (hq : q ≠ .char 0) (hne : q ≠ p) (nodes : Nodes) :
    (nodes.put p node).child q = nodes.child q := by
  induction nodes with
  | nil =>
    have hfor : p.label.isFor q ≠ true := fun h => hne (isFor_inj hq hp h (isFor_label p))
    simp [Nodes.put, Nodes.child, hfor]
  | cons label ruleIndex children siblings _ ih =>
    rw [Nodes.put]
    split
    · next hfor =>
      have hfor' : label.isFor q ≠ true := fun h => hne (isFor_inj hq hp h hfor)
      rw [Nodes.child, Nodes.child, if_neg hfor', if_neg hfor']
    · rw [Nodes.child, Nodes.child, ih]

end

/-! ### Paths -/

/-- The rule at the end of a path. -/
def ruleAt : List RulePiece → ℕ × Nodes → ℕ
  | [], node => node.1
  | p :: ps, node => ruleAt ps (node.2.child p)

/-- That rule, replaced. -/
def putAt (index : ℕ) : List RulePiece → ℕ × Nodes → ℕ × Nodes
  | [], node => (index, node.2)
  | p :: ps, node => (node.1, node.2.put p (putAt index ps (node.2.child p)))

/-- **The rule stands at its path, and the others where they stood.** -/
theorem ruleAt_putAt {index : ℕ} (ps : List RulePiece) (hps : .char 0 ∉ ps) :
    ∀ (qs : List RulePiece) (node : ℕ × Nodes), .char 0 ∉ qs →
      ruleAt qs (putAt index ps node) = if qs = ps then index else ruleAt qs node := by
  induction ps with
  | nil =>
    intro qs node _
    cases qs <;> rfl
  | cons p ps ih =>
    intro qs node hqs
    rw [List.mem_cons, not_or] at hps
    cases qs with
    | nil => rfl
    | cons q qs =>
      rw [List.mem_cons, not_or] at hqs
      rw [putAt, ruleAt, ruleAt]
      by_cases hq : q = p
      · subst hq
        rw [child_put_self, ih hps.2 qs _ hqs.2]
        simp only [List.cons.injEq, true_and]
      · rw [child_put_of_ne (Ne.symm hps.1) (Ne.symm hqs.1) hq, if_neg]
        exact fun h => hq (List.cons.inj h).1

/-- `add` throws where a rule ends already. -/
theorem addIn_eq (url : Bytes) (index : ℕ) (ps : List RulePiece) : ∀ node : ℕ × Nodes,
    addIn url index ps node =
      if ruleAt ps node = 0 then .ok (putAt index ps node)
      else throw (.runtimeError (ascii "handler already exists for " ++ url)) := by
  induction ps with
  | nil =>
    intro node
    rw [addIn, ruleAt, putAt]
    by_cases hzero : node.1 = 0
    · rw [if_neg (not_not.mpr hzero), if_pos hzero]
      rfl
    · rw [if_pos hzero, if_neg hzero]
  | cons p ps ih =>
    intro node
    rw [addIn, step_eq, ih, ruleAt]
    split <;> rfl

def Trie.node (t : Trie) : ℕ × Nodes := (t.ruleIndex, t.children)

theorem add_eq_ok_iff {t t' : Trie} {rule : Bytes} {index : ℕ} : t.add rule index = .ok t' ↔
    ∃ ps, cutRule rule.length rule = some ps ∧ ruleAt ps t.node = 0 ∧
      t'.node = putAt index ps t.node := by
  rw [Trie.add]
  split
  · next h => simp [h, throw, throwThe, MonadExceptOf.throw]
  · next ps h =>
    rw [addIn_eq, ← Trie.node, h]
    simp only [Option.some.injEq, exists_eq_left']
    by_cases hzero : ruleAt ps t.node = 0
    · rw [if_pos hzero, ok_bind]
      constructor
      · intro heq
        exact ⟨hzero, by rw [← Except.ok.inj heq]; rfl⟩
      · intro heq
        rw [← heq.2]
        rfl
    · simp [hzero, throw, throwThe, MonadExceptOf.throw]

/-! ### Tables -/

/-- The rules of a table are cut, no two of them alike. -/
def Apart (table : List (Bytes × ℕ)) : Prop :=
  (∀ rule ∈ table, ∃ ps, cutRule rule.1.length rule.1 = some ps) ∧
    table.Pairwise fun rule rule' =>
      cutRule rule.1.length rule.1 ≠ cutRule rule'.1.length rule'.1

theorem apart_of_nodup {table : List (Bytes × ℕ)}
    (hcut : (table.all fun rule => (cutRule rule.1.length rule.1).isSome) = true)
    (hnodup : (table.map fun rule => cutRule rule.1.length rule.1).Nodup) : Apart table :=
  ⟨fun rule hrule => Option.isSome_iff_exists.mp (List.all_eq_true.mp hcut rule hrule),
    List.pairwise_map.mp hnodup⟩

/-- A table is accepted when its rules are apart and end where none ends yet. -/
theorem addAll_isOk_iff_ruleAt (table : List (Bytes × ℕ)) : ∀ t : Trie, TableOk table →
    ((∃ t', t.addAll table = .ok t') ↔ Apart table ∧
      ∀ rule ∈ table, ∀ ps, cutRule rule.1.length rule.1 = some ps → ruleAt ps t.node = 0) := by
  induction table with
  | nil =>
    intro t _
    exact ⟨fun _ => ⟨⟨by simp, List.Pairwise.nil⟩, by simp⟩, fun _ => ⟨t, rfl⟩⟩
  | cons rule table ih =>
    intro t htable
    obtain ⟨hrule, hrest⟩ := List.forall_mem_cons.mp htable
    -- after the first rule every other path leads where it led
    have hstep : ∀ (t₁ : Trie) (ps qs : List RulePiece), t₁.node = putAt rule.2 ps t.node →
        cutRule rule.1.length rule.1 = some ps → (∃ r ∈ table, cutRule r.1.length r.1 = some qs) →
          (ruleAt qs t₁.node = 0 ↔ qs ≠ ps ∧ ruleAt qs t.node = 0) := by
      intro t₁ ps qs hput hps hqs
      obtain ⟨r, hr, hqs⟩ := hqs
      rw [hput, ruleAt_putAt ps (notMem_cutRule _ _ ps hps hrule.2) qs _
        (notMem_cutRule _ _ qs hqs (hrest r hr).2)]
      split
      · next heq => simp [heq, hrule.1]
      · next hne => simp [hne]
    constructor
    · rintro ⟨t', h⟩
      obtain ⟨t₁, hadd, h⟩ := bind_eq_ok.mp h
      obtain ⟨ps, hps, hzero, hput⟩ := add_eq_ok_iff.mp hadd
      obtain ⟨⟨hcut, hpairs⟩, hends⟩ := (ih t₁ hrest).mp ⟨t', h⟩
      have hother : ∀ r ∈ table, ∀ qs, cutRule r.1.length r.1 = some qs →
          qs ≠ ps ∧ ruleAt qs t.node = 0 := fun r hr qs hqs =>
        (hstep t₁ ps qs hput hps ⟨r, hr, hqs⟩).mp (hends r hr qs hqs)
      refine ⟨⟨List.forall_mem_cons.mpr ⟨⟨ps, hps⟩, hcut⟩, List.pairwise_cons.mpr ⟨?_, hpairs⟩⟩,
        List.forall_mem_cons.mpr ⟨?_, fun r hr qs hqs => (hother r hr qs hqs).2⟩⟩
      · intro r hr heq
        exact (hother r hr ps (heq ▸ hps)).1 rfl
      · intro qs hqs
        rwa [← Option.some.inj (hps.symm.trans hqs)]
    · rintro ⟨⟨hcut, hpairs⟩, hends⟩
      obtain ⟨⟨ps, hps⟩, hcut⟩ := List.forall_mem_cons.mp hcut
      obtain ⟨hfirst, hpairs⟩ := List.pairwise_cons.mp hpairs
      obtain ⟨hzero, hends⟩ := List.forall_mem_cons.mp hends
      obtain ⟨t₁, hput⟩ : ∃ t₁ : Trie, t₁.node = putAt rule.2 ps t.node := ⟨⟨_, _⟩, rfl⟩
      have hadd : t.add rule.1 rule.2 = .ok t₁ :=
        add_eq_ok_iff.mpr ⟨ps, hps, hzero ps hps, hput⟩
      have hends₁ : ∀ r ∈ table, ∀ qs, cutRule r.1.length r.1 = some qs →
          ruleAt qs t₁.node = 0 := fun r hr qs hqs =>
        (hstep t₁ ps qs hput hps ⟨r, hr, hqs⟩).mpr
          ⟨fun heq => hfirst r hr (by rw [hps, hqs, heq]), hends r hr qs hqs⟩
      obtain ⟨t', h⟩ := (ih t₁ hrest).mpr ⟨⟨hcut, hpairs⟩, hends₁⟩
      exact ⟨t', bind_eq_ok.mpr ⟨t₁, hadd, h⟩⟩

/-- The empty trie leads to no rule. -/
theorem ruleAt_empty (ps : List RulePiece) : ruleAt ps Trie.empty.node = 0 := by
  induction ps with
  | nil => rfl
  | cons p ps ih => exact ih

/-- **A table is accepted when its rules are apart.** -/
theorem addAll_isOk_iff {table : List (Bytes × ℕ)} (htable : TableOk table) :
    (∃ t, Trie.empty.addAll table = .ok t) ↔ Apart table := by
  rw [addAll_isOk_iff_ruleAt table .empty htable]
  exact and_iff_left fun _ _ ps _ => ruleAt_empty ps

/-! ### The head -/

/-- All rules go through one slash. -/
def Trie.Rooted (t : Trie) : Prop :=
  t.ruleIndex = 0 ∧ (t.children = .nil ∨
    ∃ ruleIndex children, t.children = .cons (.key 47 []) ruleIndex children .nil)

theorem Trie.Rooted.add {t t' : Trie} {rule : Bytes} {index : ℕ} (h : t.Rooted)
    (hslash : rule.head? = some 47) (hadd : t.add rule index = .ok t') : t'.Rooted := by
  obtain ⟨ps, hps, -, hput⟩ := add_eq_ok_iff.mp hadd
  obtain ⟨rest, rfl⟩ : ∃ rest, rule = 47 :: rest := by
    cases rule with
    | nil => simp at hslash
    | cons c rest => exact ⟨rest, by rw [Option.some.inj hslash]⟩
  obtain ⟨qs, -, rfl⟩ := Option.map_eq_some_iff.mp hps
  obtain ⟨hzero, hchildren⟩ := h
  obtain ⟨hindex, hnodes⟩ := Prod.mk.inj hput
  refine ⟨hindex.trans hzero, Or.inr ?_⟩
  rw [hnodes]
  rcases hchildren with hnil | ⟨i, cs, hcons⟩
  · exact ⟨_, _, by rw [Trie.node, hnil]; rfl⟩
  · exact ⟨_, _, by rw [Trie.node, hcons]; rfl⟩

theorem Trie.Rooted.addAll (table : List (Bytes × ℕ)) : ∀ t t' : Trie, t.Rooted →
    (∀ rule ∈ table, rule.1.head? = some 47) → t.addAll table = .ok t' → t'.Rooted := by
  induction table with
  | nil =>
    intro t t' h _ hadd
    rwa [← Except.ok.inj hadd]
  | cons rule table ih =>
    intro t t' h hslash hadd
    obtain ⟨hfirst, hslash⟩ := List.forall_mem_cons.mp hslash
    obtain ⟨t₁, hfirstAdd, hadd⟩ := bind_eq_ok.mp hadd
    exact ih t₁ t' (h.add hfirst hfirstAdd) hslash hadd

theorem Trie.Rooted.validate {t : Trie} (h : t.Rooted) : ∃ t', t.validate = .ok t' := by
  obtain ⟨ruleIndex, children⟩ := t
  obtain ⟨rfl, rfl | ⟨i, cs, rfl⟩⟩ := h <;> exact ⟨_, rfl⟩

/-- A table of rules that start with a slash makes a valid trie when they are apart. -/
theorem valid_iff {table : List (Bytes × ℕ)} (htable : TableOk table)
    (hslash : ∀ rule ∈ table, rule.1.head? = some 47) :
    (∃ t t', Trie.empty.addAll table = .ok t ∧ t.validate = .ok t') ↔ Apart table := by
  rw [← addAll_isOk_iff htable]
  constructor
  · rintro ⟨t, -, hadd, -⟩
    exact ⟨t, hadd⟩
  · rintro ⟨t, hadd⟩
    have hroot : t.Rooted := Trie.Rooted.addAll table .empty t ⟨rfl, Or.inl rfl⟩ hslash hadd
    obtain ⟨t', hvalid⟩ := hroot.validate
    exact ⟨t, t', hadd, hvalid⟩

/-- **A table is accepted when its rules are apart, and then the first that matches is found.** -/
theorem trie_correct [Strtod] {table : List (Bytes × ℕ)} (htable : TableOk table)
    (hslash : ∀ rule ∈ table, rule.1.head? = some 47) :
    ((∃ t t', Trie.empty.addAll table = .ok t ∧ t.validate = .ok t') ↔ Apart table) ∧
      ∀ t t', Trie.empty.addAll table = .ok t → t.validate = .ok t' →
        ∀ url, IsBest (t'.find url) (candidates table url) :=
  ⟨valid_iff htable hslash, fun _ _ hadd hvalid => find_isBest htable hadd hvalid⟩

/-- A string, and a double. -/
def twoRules : List (Bytes × ℕ) := [(ascii "/<string>", 2), (ascii "/<double>", 3)]

/-- What `strtod` makes of `0.5`. -/
@[reducible] def strtodHalf : Strtod where
  strtod text := if text = ascii "0.5" then (0x3FE0000000000000#64, 3, false) else (0, 0, false)

/-- Both rules match, and the one that was added first is found. -/
theorem trie_correct_two : ∃ t t', Trie.empty.addAll twoRules = .ok t ∧ t.validate = .ok t' ∧
    @candidates strtodHalf twoRules (ascii "/0.5") =
      [⟨2, ⟨[], [], [], [ascii "0.5"]⟩⟩, ⟨3, ⟨[], [], [0x3FE0000000000000#64], []⟩⟩] ∧
    IsBest (@Trie.find strtodHalf t' (ascii "/0.5"))
      (@candidates strtodHalf twoRules (ascii "/0.5")) := by
  have htable : ∀ rule ∈ twoRules, rule.2 ≠ 0 ∧ (0 : UInt8) ∉ rule.1 := by decide
  have hslash : ∀ rule ∈ twoRules, rule.1.head? = some 47 := by decide
  obtain ⟨hvalid, hbest⟩ := @trie_correct strtodHalf twoRules htable hslash
  obtain ⟨t, t', hadd, hvalid⟩ := hvalid.mpr (apart_of_nodup (by decide) (by decide))
  exact ⟨t, t', hadd, hvalid, by decide, hbest t t' hadd hvalid _⟩

end Routing
end JobScheduler
