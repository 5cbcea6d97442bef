import JobScheduler.Fault

/-!
# The trie of the routes

`crow::Trie`: the rules of one method in a tree whose edges are pieces of text and parameters.
A rule is added one character at a time, `optimize` then joins the nodes that have one
continuation, and `find` walks down every branch that fits the address and keeps the rule with
the least index.

Blueprints are left out, no rule here has one.  A double is its 64 bits, and what `strtod` reads
is a parameter of the model.

## Main definitions

* `Strtod` — the C library's function.
* `ParamType.read` — what a parameter reads off an address.
* `Nodes`, `Trie` — the tree; a node is kept with the label of the edge that leads to it.
* `Trie.find`, `Trie.add`, `Trie.validate` — its operations.
* `Nodes.rules` — the rules of a tree, with the paths to them.
* `follow` — a path leads through an address.

## Main results

* `findIn_isBest` — **the walk finds what a search through all rules finds.**
* `adds_addIn` — a rule that is added is one more rule.
* `rules_optimize` — joining nodes leaves the rules as they are.
* `find_isBest` — **the trie of some rules finds the first that matches.**
-/

namespace JobScheduler
namespace Routing

open CText

/-! ### Parameters -/

/-- `ParamType`, without the `MAX` of a node that has none. -/
inductive ParamType
  | int
  | uint
  | double
  | string
  | path
  deriving DecidableEq, Repr

/-- `routing_params`. -/
structure RoutingParams where
  intParams : List Int64
  uintParams : List UInt64
  doubleParams : List (BitVec 64)
  stringParams : List Bytes
  deriving DecidableEq, Repr

def RoutingParams.empty : RoutingParams := ⟨[], [], [], []⟩

/-- `strtod` of the C library: the bits of the value, how many characters it has read, and whether
it has set `errno` to `ERANGE`. -/
class Strtod where
  strtod : Bytes → BitVec 64 × ℕ × Bool

/-- `strtoll` on a text that starts with a digit or a sign, and what it leaves; `none` where it
reads no digit, or sets `ERANGE`. -/
def readInt (url : Bytes) : Option (Int64 × Bytes) :=
  let signed := scanSign url
  let ds := signed.2.takeWhile isDigit
  let value : ℤ := if signed.1 then -digitsValue ds else digitsValue ds
  if ds.isEmpty then none
  else if value < Int64.minValue.toInt ∨ Int64.maxValue.toInt < value then none
  else some (Int64.ofInt value, signed.2.dropWhile isDigit)

/-- `strtoull` on a text that starts with a digit or a plus sign. -/
def readUint (url : Bytes) : Option (UInt64 × Bytes) :=
  let signed := scanSign url
  let ds := signed.2.takeWhile isDigit
  if signed.1 || ds.isEmpty then none
  else if 2 ^ 64 ≤ digitsValue ds then none
  else some (UInt64.ofNat (digitsValue ds), signed.2.dropWhile isDigit)

section

variable [Strtod]

/-- `strtod` on a text that starts with a digit, a sign or a point. -/
def readDouble (url : Bytes) : Option (BitVec 64 × Bytes) :=
  match url with
  | [] => none
  | c :: _ =>
    if isDigit c || c = 43 || c = 45 || c = 46 then
      let (value, n, erange) := Strtod.strtod url
      if erange || n = 0 then none else some (value, url.drop n)
    else none

/-- The parameter is read off the front of what is left of the address, and kept. -/
def ParamType.read (t : ParamType) (url : Bytes) (params : RoutingParams) :
    Option (Bytes × RoutingParams) :=
  match t with
  | .int => (readInt url).map fun r => (r.2, { params with intParams := params.intParams ++ [r.1] })
  | .uint =>
    (readUint url).map fun r => (r.2, { params with uintParams := params.uintParams ++ [r.1] })
  | .double =>
    (readDouble url).map fun r =>
      (r.2, { params with doubleParams := params.doubleParams ++ [r.1] })
  | .string =>
    let text := url.takeWhile (· != 47)
    if text.isEmpty then none
    else some (url.dropWhile (· != 47),
      { params with stringParams := params.stringParams ++ [text] })
  | .path =>
    if url.isEmpty then none
    else some ([], { params with stringParams := params.stringParams ++ [url] })

end

/-! ### The tree -/

/-- `key` or `param` of a node; a key is not empty. -/
inductive Label
  | key (c : UInt8) (cs : Bytes)
  | param (t : ParamType)
  deriving DecidableEq, Repr

/-- `std::vector<Node>`: each node with its label, its `rule_index` and its children. -/
inductive Nodes
  | nil
  | cons (label : Label) (ruleIndex : ℕ) (children : Nodes) (siblings : Nodes)
  deriving DecidableEq, Repr

/-- `head_`. -/
structure Trie where
  ruleIndex : ℕ
  children : Nodes
  deriving DecidableEq, Repr

def Trie.empty : Trie := ⟨0, .nil⟩

/-- `routing_handle_result`: index 0 is no rule. -/
structure Found where
  ruleIndex : ℕ
  params : RoutingParams
  deriving DecidableEq, Repr

def Found.none : Found := ⟨0, .empty⟩

/-- `update_found`. -/
def updateFound (found ret : Found) : Found :=
  if ret.ruleIndex ≠ 0 ∧ (found.ruleIndex = 0 ∨ ret.ruleIndex < found.ruleIndex) then ret else found

section

variable [Strtod]

/-- What an edge takes off the address. -/
def Label.read (label : Label) (url : Bytes) (params : RoutingParams) :
    Option (Bytes × RoutingParams) :=
  match label with
  | .key c cs =>
    if (c :: cs).isPrefixOf url then some (url.drop (cs.length + 1), params) else .none
  | .param t => t.read url params

/-- The loop of `find` over the children of a node, where the address does not end. -/
def Nodes.findIn : Nodes → Bytes → RoutingParams → Found → Found
  | .nil, _, _, found => found
  | .cons label ruleIndex children siblings, url, params, found =>
    siblings.findIn url params <|
      match label.read url params with
      | none => found
      | some (url, params) =>
        updateFound found
          (if url.isEmpty then ⟨ruleIndex, params⟩ else children.findIn url params .none)

/-- `find`. -/
def Trie.find (t : Trie) (url : Bytes) : Found :=
  if url.isEmpty then ⟨t.ruleIndex, .empty⟩ else t.children.findIn url .empty .none

end

/-! ### Adding a rule -/

/-- A character of a rule, or a parameter. -/
inductive RulePiece
  | char (c : UInt8)
  | param (t : ParamType)
  deriving DecidableEq, Repr

/-- `paramTraits`. -/
def paramTraits : List (ParamType × Bytes) :=
  [(.int, ascii "<int>"), (.uint, ascii "<uint>"), (.double, ascii "<float>"),
    (.double, ascii "<double>"), (.string, ascii "<str>"), (.string, ascii "<string>"),
    (.path, ascii "<path>")]

/-- A rule, cut where the loop of `add` takes its steps.  That loop stays at a `<` that opens no
parameter. -/
def cutRule : ℕ → Bytes → Option (List RulePiece)
  | _, [] => some []
  | 0, _ :: _ => none
  | fuel + 1, c :: url =>
    if c = 60 then
      match paramTraits.find? fun x => x.2.isPrefixOf (c :: url) with
      | some x => (cutRule fuel ((c :: url).drop x.2.length)).map (.param x.1 :: ·)
      | none => none
    else (cutRule fuel url).map (.char c :: ·)

/-- The label of a new node. -/
def RulePiece.label : RulePiece → Label
  | .char c => .key c []
  | .param t => .param t

/-- A child is the one for this piece: `child.param == x.type`, or `child.key[0] == c`, where the
key of a parameter is empty. -/
def Label.isFor : Label → RulePiece → Bool
  | .key c _, .char d => c = d
  | .param _, .char d => d = 0
  | .param t, .param u => t = u
  | .key _ _, .param _ => false

/-- Go on at the first child for the piece, or at a new one behind the others. -/
def Nodes.step (p : RulePiece) (f : ℕ × Nodes → Except Fault (ℕ × Nodes)) :
    Nodes → Except Fault Nodes
  | .nil => do
    let (ruleIndex, children) ← f (0, .nil)
    pure (.cons p.label ruleIndex children .nil)
  | .cons label ruleIndex children siblings =>
    if label.isFor p then do
      let (ruleIndex, children) ← f (ruleIndex, children)
      pure (.cons label ruleIndex children siblings)
    else do
      let siblings ← siblings.step p f
      pure (.cons label ruleIndex children siblings)

/-- `add` from a node on. -/
def addIn (url : Bytes) (index : ℕ) : List RulePiece → ℕ × Nodes → Except Fault (ℕ × Nodes)
  | [], (ruleIndex, children) =>
    if ruleIndex ≠ 0 then throw (.runtimeError (ascii "handler already exists for " ++ url))
    else pure (index, children)
  | p :: ps, (ruleIndex, children) => do
    let children ← children.step p (addIn url index ps)
    pure (ruleIndex, children)

/-- `add`. -/
def Trie.add (t : Trie) (url : Bytes) (index : ℕ) : Except Fault Trie :=
  match cutRule url.length url with
  | none => throw .outOfFuel
  | some ps => do
    let (ruleIndex, children) ← addIn url index ps (t.ruleIndex, t.children)
    pure ⟨ruleIndex, children⟩

/-! ### Joining nodes -/

mutual

/-- `optimizeNode`: a node with nothing but one more key below it takes this one over. -/
def optimizeNode : Nodes → Label → ℕ → Label × ℕ × Nodes
  | .nil, label, ruleIndex => (label, ruleIndex, .nil)
  | .cons label₁ ruleIndex₁ children₁ siblings, label, ruleIndex =>
    match label, ruleIndex, label₁, siblings with
    | .key c cs, 0, .key c₁ cs₁, .nil =>
      optimizeNode children₁ (.key c (cs ++ c₁ :: cs₁)) ruleIndex₁
    | label, ruleIndex, label₁, siblings =>
      let (label₁, ruleIndex₁, children₁) := optimizeNode children₁ label₁ ruleIndex₁
      (label, ruleIndex, .cons label₁ ruleIndex₁ children₁ (optimizeAll siblings))

/-- `for (auto& child : children) optimizeNode(child);` -/
def optimizeAll : Nodes → Nodes
  | .nil => .nil
  | .cons label ruleIndex children siblings =>
    let (label, ruleIndex, children) := optimizeNode children label ruleIndex
    .cons label ruleIndex children (optimizeAll siblings)

end

/-- `head_.IsSimpleNode()`. -/
def Trie.isSimple (t : Trie) : Bool :=
  match t with
  | ⟨0, .nil⟩ => true
  | ⟨0, .cons (.key _ _) _ _ .nil⟩ => true
  | _ => false

/-- `validate`. -/
def Trie.validate (t : Trie) : Except Fault Trie :=
  if t.isSimple then pure { t with children := optimizeAll t.children }
  else throw (.runtimeError (ascii "Internal error: Trie header should be simple!"))

/-! ### What a rule matches -/

section

variable [Strtod]

/-- The rule leads through the whole address. -/
def follow : List RulePiece → Bytes → RoutingParams → Option RoutingParams
  | [], [], params => some params
  | [], _ :: _, _ => none
  | .char _ :: _, [], _ => none
  | .char c :: ps, b :: url, params => if b = c then follow ps url params else none
  | .param t :: ps, url, params =>
    match t.read url params with
    | none => none
    | some (url, params) => follow ps url params

/-- The rules that match, with what their parameters have read. -/
def matching (rules : List (List RulePiece × ℕ)) (url : Bytes) (params : RoutingParams) :
    List Found :=
  rules.filterMap fun rule => (follow rule.1 url params).map (⟨rule.2, ·⟩)

end

/-- The rule found is one of these with the least index, and there is none when none is found. -/
structure IsBest (found : Found) (candidates : List Found) : Prop where
  least : ∀ x ∈ candidates, found.ruleIndex ≠ 0 ∧ found.ruleIndex ≤ x.ruleIndex
  mem : found.ruleIndex ≠ 0 → found ∈ candidates

/-- The pieces of a label. -/
def Label.pieces : Label → List RulePiece
  | .key c cs => (c :: cs).map .char
  | .param t => [.param t]

/-- The rule that ends at a node. -/
def ownRule (ruleIndex : ℕ) : List (List RulePiece × ℕ) :=
  if ruleIndex = 0 then [] else [([], ruleIndex)]

/-- Rules further down. -/
def below (ps : List RulePiece) (rules : List (List RulePiece × ℕ)) : List (List RulePiece × ℕ) :=
  rules.map fun rule => (ps ++ rule.1, rule.2)

/-- The rules of the nodes, with the paths to them. -/
def Nodes.rules : Nodes → List (List RulePiece × ℕ)
  | .nil => []
  | .cons label ruleIndex children siblings =>
    below label.pieces (ownRule ruleIndex ++ children.rules) ++ siblings.rules

def Trie.rules (t : Trie) : List (List RulePiece × ℕ) := ownRule t.ruleIndex ++ t.children.rules

@[simp] theorem below_nil (ps : List RulePiece) : below ps [] = [] := rfl

@[simp] theorem below_append (ps : List RulePiece) (rules rules' : List (List RulePiece × ℕ)) :
    below ps (rules ++ rules') = below ps rules ++ below ps rules' :=
  List.map_append

theorem below_below (ps qs : List RulePiece) (rules : List (List RulePiece × ℕ)) :
    below ps (below qs rules) = below (ps ++ qs) rules := by
  simp [below, Function.comp_def]

theorem isBest_none : IsBest Found.none [] :=
  ⟨by simp, fun h => absurd rfl h⟩

/-- The better of two is the best of both. -/
theorem IsBest.updateFound {found ret : Found} {A B : List Found} (hA : IsBest found A)
    (hB : IsBest ret B) : IsBest (updateFound found ret) (A ++ B) := by
  rw [Routing.updateFound]
  split
  · next h =>
    refine ⟨fun x hx => ?_, fun hne => List.mem_append_right A (hB.mem hne)⟩
    rcases List.mem_append.mp hx with hx | hx
    · have hleast := hA.least x hx
      exact ⟨h.1, by omega⟩
    · exact hB.least x hx
  · next h =>
    refine ⟨fun x hx => ?_, fun hne => List.mem_append_left B (hA.mem hne)⟩
    rcases List.mem_append.mp hx with hx | hx
    · exact hA.least x hx
    · have hleast := hB.least x hx
      omega

section

variable [Strtod] {url : Bytes} {params : RoutingParams}

@[simp] theorem matching_append (rules rules' : List (List RulePiece × ℕ)) :
    matching (rules ++ rules') url params =
      matching rules url params ++ matching rules' url params :=
  List.filterMap_append

/-! ### One edge -/

theorem ParamType.read_nil (t : ParamType) (params : RoutingParams) : t.read [] params = none := by
  cases t <;> rfl

/-- Characters are followed as far as they stand in front of the address. -/
theorem follow_chars (cs : Bytes) (ps : List RulePiece) :
    follow (cs.map .char ++ ps) url params =
      if cs.isPrefixOf url then follow ps (url.drop cs.length) params else none := by
  induction cs generalizing url with
  | nil => simp
  | cons c cs ih =>
    cases url with
    | nil => simp [follow]
    | cons b url =>
      rw [List.map_cons, List.cons_append, follow, ih]
      by_cases hb : b = c
      · simp [hb]
      · simp [hb, Ne.symm hb]

/-- **An edge takes off the address what its pieces lead through.** -/
theorem follow_label (label : Label) (ps : List RulePiece) :
    follow (label.pieces ++ ps) url params =
      (label.read url params).bind fun r => follow ps r.1 r.2 := by
  cases label with
  | key c cs =>
    rw [Label.pieces, follow_chars, Label.read]
    split <;> rfl
  | param t =>
    rw [Label.pieces, List.singleton_append, follow, Label.read]
    cases t.read url params <;> rfl

theorem matching_below (label : Label) (rules : List (List RulePiece × ℕ)) :
    matching (below label.pieces rules) url params =
      match label.read url params with
      | none => []
      | some (url, params) => matching rules url params := by
  rw [matching, below, List.filterMap_map]
  simp only [Function.comp_def, follow_label]
  cases label.read url params with
  | none => simp
  | some r => rfl

/-- At the end of the address only the rule that ends there matches. -/
theorem matching_rules_nil (nodes : Nodes) : matching nodes.rules [] params = [] := by
  induction nodes with
  | nil => rfl
  | cons label ruleIndex children siblings _ ih =>
    rw [Nodes.rules, matching_append, matching_below, ih, List.append_nil]
    cases label with
    | key c cs => rfl
    | param t => rw [Label.read, t.read_nil]

theorem matching_ownRule_nil (ruleIndex : ℕ) : matching (ownRule ruleIndex) [] params =
    if ruleIndex = 0 then [] else [⟨ruleIndex, params⟩] := by
  rw [ownRule]
  split <;> rfl

theorem matching_ownRule_cons (ruleIndex : ℕ) (b : UInt8) :
    matching (ownRule ruleIndex) (b :: url) params = [] := by
  rw [ownRule]
  split <;> rfl

/-! ### The walk -/

theorem isBest_own (ruleIndex : ℕ) :
    IsBest ⟨ruleIndex, params⟩ (matching (ownRule ruleIndex) [] params) := by
  rw [matching_ownRule_nil]
  split
  · next h => exact ⟨by simp, fun hne => absurd h hne⟩
  · next h => exact ⟨by simpa using h, fun _ => List.mem_singleton_self _⟩

/-- **The walk finds what a search through all rules finds.** -/
theorem findIn_isBest (nodes : Nodes) : ∀ (b : UInt8) (url : Bytes) (params : RoutingParams)
    (found : Found) (A : List Found), IsBest found A →
      IsBest (nodes.findIn (b :: url) params found)
        (A ++ matching nodes.rules (b :: url) params) := by
  induction nodes with
  | nil =>
    intro b url params found A hA
    rwa [Nodes.rules, matching, List.filterMap_nil, List.append_nil]
  | cons label ruleIndex children siblings ihchildren ihsiblings =>
    intro b url params found A hA
    rw [Nodes.findIn, Nodes.rules, matching_append, ← List.append_assoc]
    apply ihsiblings
    rw [matching_below]
    cases label.read (b :: url) params with
    | none => rwa [List.append_nil]
    | some r =>
      obtain ⟨url', params'⟩ := r
      dsimp only
      apply hA.updateFound
      cases url' with
      | nil =>
        -- the address ends at this node
        rw [matching_append, matching_rules_nil, List.append_nil]
        exact isBest_own ruleIndex
      | cons b' url' =>
        rw [matching_append, matching_ownRule_cons]
        exact ihchildren b' url' params' .none [] isBest_none

theorem find_isBest_rules (t : Trie) (url : Bytes) :
    IsBest (t.find url) (matching t.rules url .empty) := by
  rw [Trie.find, Trie.rules, matching_append]
  cases url with
  | nil =>
    rw [matching_rules_nil, List.append_nil]
    exact isBest_own t.ruleIndex
  | cons b url =>
    rw [matching_ownRule_cons]
    exact findIn_isBest t.children b url .empty .none [] isBest_none

end

/-! ### Adding a rule -/

/-- Before nodes are joined, a key is one character. -/
def Nodes.Single : Nodes → Prop
  | .nil => True
  | .cons label _ children siblings =>
    (∀ c cs, label = .key c cs → cs = []) ∧ children.Single ∧ siblings.Single

/-- The rules from a node on. -/
def nodeRules (node : ℕ × Nodes) : List (List RulePiece × ℕ) := ownRule node.1 ++ node.2.rules

section

variable {url : Bytes} {index : ℕ}

/-- The label of the child for a piece is that piece. -/
theorem Label.pieces_of_isFor {label : Label} {p : RulePiece} (hp : p ≠ .char 0)
    (hsingle : ∀ c cs, label = .key c cs → cs = []) (h : label.isFor p = true) :
    label.pieces = [p] := by
  cases label with
  | key c cs =>
    obtain rfl := hsingle c cs rfl
    cases p with
    | char d =>
      obtain rfl : c = d := by simpa [Label.isFor] using h
      rfl
    | param t => simp [Label.isFor] at h
  | param t =>
    cases p with
    | char d =>
      obtain rfl : d = 0 := by simpa [Label.isFor] using h
      exact absurd rfl hp
    | param u =>
      obtain rfl : t = u := by simpa [Label.isFor] using h
      rfl

theorem RulePiece.pieces_label (p : RulePiece) : p.label.pieces = [p] := by
  cases p <;> rfl

theorem mem_below_insert {rules rules' : List (List RulePiece × ℕ)} {ps : List RulePiece}
    (h : ∀ x, x ∈ rules' ↔ x ∈ rules ∨ x = (ps, index)) (p : RulePiece) (x : List RulePiece × ℕ) :
    x ∈ below [p] rules' ↔ x ∈ below [p] rules ∨ x = (p :: ps, index) := by
  simp only [below, List.mem_map, h]
  constructor
  · rintro ⟨y, hy | rfl, rfl⟩
    · exact Or.inl ⟨y, hy, rfl⟩
    · exact Or.inr rfl
  · rintro (⟨y, hy, rfl⟩ | rfl)
    · exact ⟨y, Or.inl hy, rfl⟩
    · exact ⟨(ps, index), Or.inr rfl, rfl⟩

/-- A function on nodes that gives them one more rule. -/
def Adds (ps : List RulePiece) (index : ℕ) (f : ℕ × Nodes → Except Fault (ℕ × Nodes)) : Prop :=
  ∀ node node', node.2.Single → f node = .ok node' → node'.2.Single ∧
    ∀ x, x ∈ nodeRules node' ↔ x ∈ nodeRules node ∨ x = (ps, index)

/-- One more rule at a child is one more rule. -/
theorem Adds.step {p : RulePiece} {f : ℕ × Nodes → Except Fault (ℕ × Nodes)} {ps : List RulePiece}
    (hp : p ≠ .char 0) (hf : Adds ps index f) (nodes : Nodes) : ∀ nodes', nodes.Single →
      nodes.step p f = .ok nodes' → nodes'.Single ∧
        ∀ x, x ∈ nodes'.rules ↔ x ∈ nodes.rules ∨ x = (p :: ps, index) := by
  induction nodes with
  | nil =>
    intro nodes' _ h
    obtain ⟨node, hnode, heq⟩ := bind_eq_ok.mp h
    obtain rfl := Except.ok.inj heq
    obtain ⟨hsingle, hrules⟩ := hf (0, .nil) node trivial hnode
    refine ⟨⟨?_, hsingle, trivial⟩, fun x => ?_⟩
    · intro c cs hlabel
      cases p <;> simp [RulePiece.label] at hlabel
      exact hlabel.2
    · have hinsert := mem_below_insert hrules p x
      rwa [← RulePiece.pieces_label p, ← List.append_nil (below p.label.pieces (nodeRules node))]
        at hinsert
  | cons label ruleIndex children siblings _ ih =>
    intro nodes' hnodes h
    obtain ⟨hlabel, hchildren, hsiblings⟩ := hnodes
    rw [Nodes.step] at h
    split at h
    · next hfor =>
      obtain ⟨node, hnode, heq⟩ := bind_eq_ok.mp h
      obtain rfl := Except.ok.inj heq
      obtain ⟨hsingle, hrules⟩ := hf _ _ hchildren hnode
      refine ⟨⟨hlabel, hsingle, hsiblings⟩, fun x => ?_⟩
      rw [Nodes.rules, Nodes.rules, Label.pieces_of_isFor hp hlabel hfor, List.mem_append,
        List.mem_append, or_right_comm]
      exact or_congr_left (mem_below_insert hrules p x)
    · obtain ⟨siblings', hstep, heq⟩ := bind_eq_ok.mp h
      obtain rfl := Except.ok.inj heq
      obtain ⟨hsingle, hrules⟩ := ih siblings' hsiblings hstep
      refine ⟨⟨hlabel, hchildren, hsingle⟩, fun x => ?_⟩
      rw [Nodes.rules, Nodes.rules, List.mem_append, List.mem_append, hrules, or_assoc]

/-- **A rule that is added is one more rule.** -/
theorem adds_addIn (hindex : index ≠ 0) (ps : List RulePiece) (hps : .char 0 ∉ ps) :
    Adds ps index (addIn url index ps) := by
  induction ps with
  | nil =>
    intro node node' hsingle h
    obtain ⟨ruleIndex, children⟩ := node
    rw [addIn] at h
    split at h
    · simp [throw, throwThe, MonadExceptOf.throw] at h
    · next hzero =>
      obtain rfl := Except.ok.inj h
      refine ⟨hsingle, fun x => ?_⟩
      rw [ne_eq, not_not] at hzero
      simp [nodeRules, ownRule, hzero, hindex, or_comm]
  | cons p ps ih =>
    rw [List.mem_cons, not_or] at hps
    intro node node' hsingle h
    obtain ⟨ruleIndex, children⟩ := node
    obtain ⟨children', hstep, heq⟩ := bind_eq_ok.mp h
    obtain rfl := Except.ok.inj heq
    obtain ⟨hsingle', hrules⟩ := (ih hps.2).step (Ne.symm hps.1) children children' hsingle hstep
    refine ⟨hsingle', fun x => ?_⟩
    rw [nodeRules, nodeRules, List.mem_append, List.mem_append, hrules, or_assoc]

end

/-! ### Joining nodes -/

/-- A node that takes over the next one has the rules of both. -/
theorem below_merge (c c₁ : UInt8) (cs cs₁ : Bytes) (rules : List (List RulePiece × ℕ)) :
    below (Label.key c cs).pieces (below (Label.key c₁ cs₁).pieces rules) =
      below (Label.key c (cs ++ c₁ :: cs₁)).pieces rules := by
  rw [below_below]
  simp [Label.pieces]

theorem rules_optimize (nodes : Nodes) :
    (∀ label ruleIndex, below (optimizeNode nodes label ruleIndex).1.pieces
      (nodeRules (optimizeNode nodes label ruleIndex).2) =
        below label.pieces (nodeRules (ruleIndex, nodes))) ∧
      (optimizeAll nodes).rules = nodes.rules := by
  induction nodes with
  | nil => exact ⟨fun _ _ => rfl, rfl⟩
  | cons label₁ ruleIndex₁ children₁ siblings ihchildren ihsiblings =>
    have hall : (optimizeAll (.cons label₁ ruleIndex₁ children₁ siblings)).rules =
        (Nodes.cons label₁ ruleIndex₁ children₁ siblings).rules := by
      have hnode := ihchildren.1 label₁ ruleIndex₁
      rw [nodeRules, nodeRules] at hnode
      rw [optimizeAll, Nodes.rules, Nodes.rules, hnode, ihsiblings.2]
    refine ⟨fun label ruleIndex => ?_, hall⟩
    unfold optimizeNode
    split
    · next c cs c₁ cs₁ =>
      rw [ihchildren.1, ← below_merge]
      simp [nodeRules, ownRule, Nodes.rules]
    · rw [nodeRules, nodeRules, ← hall]
      rfl

theorem rules_validate {t t' : Trie} (h : t.validate = .ok t') : t'.rules = t.rules := by
  rw [Trie.validate] at h
  split at h
  · rw [← Except.ok.inj h, Trie.rules, Trie.rules, (rules_optimize t.children).2]
  · simp [throw, throwThe, MonadExceptOf.throw] at h

/-- No rule ends at the head of a valid trie. -/
theorem ruleIndex_validate {t t' : Trie} (h : t.validate = .ok t') : t'.ruleIndex = 0 := by
  rw [Trie.validate] at h
  split at h
  · next hsimple =>
    rw [← Except.ok.inj h]
    obtain ⟨ruleIndex, children⟩ := t
    cases ruleIndex with
    | zero => rfl
    | succ n => simp [Trie.isSimple] at hsimple
  · simp [throw, throwThe, MonadExceptOf.throw] at h

/-! ### Tables of rules -/

/-- The rules of a table, added one after the other. -/
def Trie.addAll (t : Trie) (table : List (Bytes × ℕ)) : Except Fault Trie :=
  table.foldlM (fun t rule => t.add rule.1 rule.2) t

/-- What the parameters of a rule read, where it leads through the address. -/
def ruleMatch [Strtod] (rule url : Bytes) : Option RoutingParams :=
  (cutRule rule.length rule).bind fun ps => follow ps url .empty

/-- The rules of a table that match. -/
def candidates [Strtod] (table : List (Bytes × ℕ)) (url : Bytes) : List Found :=
  table.filterMap fun rule => (ruleMatch rule.1 url).map (⟨rule.2, ·⟩)

theorem IsBest.congr {found : Found} {A B : List Found} (h : IsBest found A)
    (hmem : ∀ x, x ∈ A ↔ x ∈ B) : IsBest found B :=
  ⟨fun x hx => h.least x ((hmem x).mpr hx), fun hne => (hmem found).mp (h.mem hne)⟩

/-- A rule without NULs is cut into pieces without them. -/
theorem notMem_cutRule (fuel : ℕ) : ∀ (rule : Bytes) (ps : List RulePiece),
    cutRule fuel rule = some ps → 0 ∉ rule → .char 0 ∉ ps := by
  induction fuel with
  | zero =>
    intro rule ps h _
    cases rule with
    | nil => simp [← Option.some.inj h]
    | cons c rule => simp [cutRule] at h
  | succ fuel ih =>
    intro rule ps h hnul
    cases rule with
    | nil => simp [← Option.some.inj h]
    | cons c rule =>
      rw [List.mem_cons, not_or] at hnul
      rw [cutRule] at h
      split at h
      · split at h
        · next x _ =>
          obtain ⟨qs, hqs, rfl⟩ := Option.map_eq_some_iff.mp h
          have hrest : 0 ∉ (c :: rule).drop x.2.length := fun hmem => by
            rcases List.mem_cons.mp (List.mem_of_mem_drop hmem) with hmem | hmem
            · exact hnul.1 hmem
            · exact hnul.2 hmem
          simpa using ih _ qs hqs hrest
        · simp at h
      · obtain ⟨qs, hqs, rfl⟩ := Option.map_eq_some_iff.mp h
        simpa [hnul.1] using ih rule qs hqs hnul.2

/-- What a table has to be: its rules have an index, and are C strings. -/
def TableOk (table : List (Bytes × ℕ)) : Prop := ∀ rule ∈ table, rule.2 ≠ 0 ∧ (0 : UInt8) ∉ rule.1

/-- **A rule that is added to a trie is one more rule.** -/
theorem mem_add {t t' : Trie} {rule : Bytes} {index : ℕ} (hindex : index ≠ 0) (hnul : 0 ∉ rule)
    (hsingle : t.children.Single) (h : t.add rule index = .ok t') : t'.children.Single ∧
      ∀ x, x ∈ t'.rules ↔
        x ∈ t.rules ∨ (cutRule rule.length rule = some x.1 ∧ index = x.2) := by
  rw [Trie.add] at h
  split at h
  · simp [throw, throwThe, MonadExceptOf.throw] at h
  · next ps hcut =>
    obtain ⟨node, hnode, heq⟩ := bind_eq_ok.mp h
    obtain rfl := Except.ok.inj heq
    have hadds : Adds ps index (addIn rule index ps) :=
      adds_addIn hindex ps (notMem_cutRule _ rule ps hcut hnul)
    obtain ⟨hsingle', hrules⟩ := hadds (t.ruleIndex, t.children) node hsingle hnode
    refine ⟨hsingle', fun x => (hrules x).trans (or_congr_right ?_)⟩
    rw [Prod.ext_iff, hcut, Option.some.injEq, eq_comm, eq_comm (a := x.2)]

/-- The rules of a trie are those of its table. -/
theorem mem_addAll (table : List (Bytes × ℕ)) : ∀ (t t' : Trie), TableOk table →
    t.children.Single → t.addAll table = .ok t' → ∀ x, x ∈ t'.rules ↔ x ∈ t.rules ∨
      ∃ rule ∈ table, cutRule rule.1.length rule.1 = some x.1 ∧ rule.2 = x.2 := by
  induction table with
  | nil =>
    intro t t' _ _ h x
    simp [← Except.ok.inj h]
  | cons rule table ih =>
    intro t t' htable hsingle h x
    obtain ⟨hrule, htable⟩ := List.forall_mem_cons.mp htable
    obtain ⟨t₁, hadd, hrest⟩ := bind_eq_ok.mp h
    obtain ⟨hsingle₁, hrules⟩ := mem_add hrule.1 hrule.2 hsingle hadd
    rw [ih t₁ t' htable hsingle₁ hrest x, hrules, or_assoc]
    simp only [List.mem_cons, exists_eq_or_imp]

theorem map_found_eq_some {o : Option RoutingParams} {ruleIndex : ℕ} {x : Found} :
    o.map (⟨ruleIndex, ·⟩) = some x ↔ o = some x.params ∧ ruleIndex = x.ruleIndex := by
  rw [Option.map_eq_some_iff]
  constructor
  · rintro ⟨ps, hps, rfl⟩
    exact ⟨hps, rfl⟩
  · rintro ⟨hps, hindex⟩
    exact ⟨x.params, hps, by rw [hindex]⟩

section

variable [Strtod]

theorem mem_matching {rules : List (List RulePiece × ℕ)} {url : Bytes} {params : RoutingParams}
    {x : Found} : x ∈ matching rules url params ↔
      ∃ rule ∈ rules, follow rule.1 url params = some x.params ∧ rule.2 = x.ruleIndex := by
  simp only [matching, List.mem_filterMap, map_found_eq_some]

theorem mem_candidates {table : List (Bytes × ℕ)} {url : Bytes} {x : Found} :
    x ∈ candidates table url ↔
      ∃ rule ∈ table, ruleMatch rule.1 url = some x.params ∧ rule.2 = x.ruleIndex := by
  simp only [candidates, List.mem_filterMap, map_found_eq_some]

/-- **The trie of a table finds the first rule that matches.** -/
theorem find_isBest {table : List (Bytes × ℕ)} {t t' : Trie} (htable : TableOk table)
    (hadd : Trie.empty.addAll table = .ok t) (hvalid : t.validate = .ok t') (url : Bytes) :
    IsBest (t'.find url) (candidates table url) := by
  refine (find_isBest_rules t' url).congr fun x => ?_
  rw [rules_validate hvalid, mem_matching, mem_candidates]
  have hrules := mem_addAll table .empty t htable trivial hadd
  constructor
  · rintro ⟨path, hpath, hfollow, hindex⟩
    rcases (hrules path).mp hpath with hnil | ⟨rule, hrule, hcut, hindex'⟩
    · simp [Trie.empty, Trie.rules, ownRule, Nodes.rules] at hnil
    · exact ⟨rule, hrule, by rw [ruleMatch, hcut, Option.bind_some, hfollow], hindex'.trans hindex⟩
  · rintro ⟨rule, hrule, hmatch, hindex⟩
    obtain ⟨ps, hcut, hfollow⟩ := Option.bind_eq_some_iff.mp hmatch
    exact ⟨(ps, rule.2), (hrules _).mpr (Or.inr ⟨rule, hrule, hcut, rfl⟩), hfollow, hindex⟩

end

end Routing
end JobScheduler
