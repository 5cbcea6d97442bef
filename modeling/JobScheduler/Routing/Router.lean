import JobScheduler.Routing.Adding
import Mathlib.Logic.Function.Basic

/-!
# The router

`crow::Router`: a trie and a list of rules for each method.  A rule whose text ends in a slash is
also reached without it, and then answered with a redirection.  `handle_initial` looks the
address up, and has answers of its own for `HEAD` and `OPTIONS`; `handle` runs the rule.

Blueprints, middleware, upgrades and a catch-all handler are left out, the server has none.  Every
rule has a handler.

## Main definitions

* `HTTPMethod`, `Rule`, `Router` — the rules of each method.
* `Router.validate` — the rules are added, and the tries made ready.
* `Router.handle` — what becomes of a request.
* `search`, `answer` — the same by a search through the list of rules.

## Main results

* `validate_isOk_iff` — the rules that a router accepts.
* `router_correct` — **with these the router does what the search says.**
-/

namespace JobScheduler
namespace Routing

open CText

/-! ### Methods -/

/-- `HTTPMethod`. -/
inductive HTTPMethod
  | delete | get | head | post | put
  | connect | options | trace
  | patch | purge
  | copy | lock | mkCol | move | propfind | proppatch | search | unlock | bind | rebind | unbind
  | acl
  | report | mkActivity | checkout | merge
  | mSearch | notify | subscribe | unsubscribe
  | mkCalendar
  | link | unlink
  | source
  deriving DecidableEq, Repr

namespace HTTPMethod

/-- The methods with their names, in the order of their numbers. -/
def methodStrings : List (HTTPMethod × Bytes) :=
  [(.delete, ascii "DELETE"), (.get, ascii "GET"), (.head, ascii "HEAD"), (.post, ascii "POST"),
    (.put, ascii "PUT"), (.connect, ascii "CONNECT"), (.options, ascii "OPTIONS"),
    (.trace, ascii "TRACE"), (.patch, ascii "PATCH"), (.purge, ascii "PURGE"),
    (.copy, ascii "COPY"), (.lock, ascii "LOCK"), (.mkCol, ascii "MKCOL"), (.move, ascii "MOVE"),
    (.propfind, ascii "PROPFIND"), (.proppatch, ascii "PROPPATCH"), (.search, ascii "SEARCH"),
    (.unlock, ascii "UNLOCK"), (.bind, ascii "BIND"), (.rebind, ascii "REBIND"),
    (.unbind, ascii "UNBIND"), (.acl, ascii "ACL"), (.report, ascii "REPORT"),
    (.mkActivity, ascii "MKACTIVITY"), (.checkout, ascii "CHECKOUT"), (.merge, ascii "MERGE"),
    (.mSearch, ascii "M-SEARCH"), (.notify, ascii "NOTIFY"), (.subscribe, ascii "SUBSCRIBE"),
    (.unsubscribe, ascii "UNSUBSCRIBE"), (.mkCalendar, ascii "MKCALENDAR"), (.link, ascii "LINK"),
    (.unlink, ascii "UNLINK"), (.source, ascii "SOURCE")]

def all : List HTTPMethod := methodStrings.map Prod.fst

theorem nodup_all : all.Nodup := by
  decide

@[simp] theorem mem_all (m : HTTPMethod) : m ∈ all := by
  cases m <;> decide

/-- The value of the enumerator. -/
def number (m : HTTPMethod) : ℕ := all.idxOf m

/-- `method_name`. -/
def name (m : HTTPMethod) : Bytes := ((methodStrings.find? (·.1 = m)).map Prod.snd).getD []

end HTTPMethod

/-! ### Rules -/

/-- `BaseRule`; its text is a C string. -/
structure Rule (α : Type) where
  rule : Bytes
  noNul : (0 : UInt8) ∉ rule
  methods : BitVec 32
  handler : α

/-- `methods(method)`. -/
def methodBit (m : HTTPMethod) : BitVec 32 := 1#32 <<< m.number

variable {α : Type}

/-- `foreach_method`.  The bit of a method from number 32 on is zero. -/
def Rule.foreachMethod (r : Rule α) : List HTTPMethod :=
  HTTPMethod.all.filter fun m => r.methods.getLsbD m.number

/-- `validate` of a rule. -/
def Rule.validate (r : Rule α) : Except Fault Unit :=
  match r.rule with
  | [] => throw .outOfRange
  | c :: _ =>
    if c ≠ 47 then throw (.runtimeError (ascii "Internal error: Routes must start with a '/'"))
    else pure ()

/-- `PerMethod`; the rules 0 and 1 are none. -/
@[ext]
structure PerMethod (α : Type) where
  rules : List (Option (Rule α))
  trie : Trie

def PerMethod.new : PerMethod α := ⟨[none, none], .empty⟩

/-- `per_methods_`. -/
abbrev Router (α : Type) := HTTPMethod → PerMethod α

/-- `rule_without_trailing_slash`. -/
def withoutTrailingSlash (rule : Bytes) : Option Bytes :=
  if 1 < rule.length ∧ rule.getLast? = some 47 then some rule.dropLast else none

/-- `internal_add_rule_object` at one method. -/
def PerMethod.addRule (pm : PerMethod α) (r : Rule α) : Except Fault (PerMethod α) := do
  let rules := pm.rules ++ [some r]
  let trie ← pm.trie.add r.rule (rules.length - 1)
  let trie ← match withoutTrailingSlash r.rule with
    | some rule => trie.add rule 1
    | none => pure trie
  pure ⟨rules, trie⟩

/-- A loop over entries of an array, which it changes. -/
def updateEach {ι β : Type} [DecidableEq ι] (f : β → Except Fault β) :
    List ι → (ι → β) → Except Fault (ι → β)
  | [], g => pure g
  | i :: is, g => do
    let b ← f (g i)
    updateEach f is (Function.update g i b)

/-- `internal_add_rule_object`. -/
def internalAddRuleObject (router : Router α) (r : Rule α) : Except Fault (Router α) :=
  updateEach (·.addRule r) r.foreachMethod router

/-- The loop of `validate` over `all_rules_`. -/
def addRules : List (Rule α) → Router α → Except Fault (Router α)
  | [], router => pure router
  | r :: rs, router => do
    r.validate
    let router ← internalAddRuleObject router r
    addRules rs router

/-- `validate` of the trie of a method. -/
def PerMethod.validate (pm : PerMethod α) : Except Fault (PerMethod α) := do
  let trie ← pm.trie.validate
  pure ⟨pm.rules, trie⟩

/-- `validate`. -/
def Router.validate (rules : List (Rule α)) : Except Fault (Router α) := do
  let router ← addRules rules fun _ => .new
  updateEach PerMethod.validate HTTPMethod.all router

/-! ### Requests -/

/-- What `handle_initial` makes of a request: a rule is found, the response is complete, or it is
left to the catch-all handler. -/
inductive Initial
  | found (method : HTTPMethod) (result : Found) (skipBody : Bool)
  | answered (code : ℕ) (allow : Option Bytes)
  | catchAll (code : ℕ)
  deriving DecidableEq, Repr

/-- The `Allow` header for some methods besides `HEAD`. -/
def allowText (methods : List HTTPMethod) : Bytes :=
  ascii "OPTIONS, HEAD" ++ methods.flatMap fun m => ascii ", " ++ m.name

section

variable [Strtod]

namespace Router

def find (router : Router α) (method : HTTPMethod) (url : Bytes) : Found :=
  (router method).trie.find url

/-- `is_empty`. -/
def isEmpty (router : Router α) (method : HTTPMethod) : Bool :=
  (router method).trie.children = .nil

/-- The methods that have a rule for an address. -/
def methodsFor (router : Router α) (url : Bytes) : List HTTPMethod :=
  HTTPMethod.all.filter fun m => (router.find m url).ruleIndex ≠ 0

/-- `handle_initial`. -/
def handleInitial (router : Router α) (method : HTTPMethod) (url : Bytes) : Initial :=
  match method with
  | .head =>
    let found := router.find .head url
    if found.ruleIndex ≠ 0 then .found .head found true
    else
      let found := router.find .get url
      if found.ruleIndex ≠ 0 then .found .get found true else .answered 404 none
  | .options =>
    if url = ascii "/*" then
      .answered 204
        (some (allowText (HTTPMethod.all.filter fun m => m ≠ .head && !router.isEmpty m)))
    else if (router.methodsFor url).isEmpty then .answered 404 none
    else .answered 204 (some (allowText ((router.methodsFor url).filter (· ≠ .head))))
  | method =>
    let found := router.find method url
    if found.ruleIndex ≠ 0 then .found method found false
    else if (router.methodsFor url).isEmpty then .catchAll 404
    else .catchAll 405

end Router

/-- What becomes of a request. -/
inductive Handled (α : Type)
  | run (rule : Rule α) (params : RoutingParams) (skipBody : Bool)
  | redirect (location : Bytes) (skipBody : Bool)
  | answered (code : ℕ) (allow : Option Bytes)

/-- `handle_initial`, and `handle` for what it has not answered. -/
def Router.handle (router : Router α) (method : HTTPMethod) (url : Bytes) :
    Except Fault (Handled α) :=
  match router.handleInitial method url with
  | .answered code allow => pure (.answered code allow)
  | .catchAll code => pure (.answered code none)
  | .found method found skipBody =>
    match (router method).rules[found.ruleIndex]? with
    | none => throw (.runtimeError (ascii "Trie internal structure corrupted!"))
    | some r =>
      if found.ruleIndex = 1 then pure (.redirect (url ++ [47]) skipBody)
      else
        match r with
        | none => throw .undefinedBehaviour
        | some r => pure (.run r found.params skipBody)

/-! ### The same by a search -/

/-- The rules of a method, in the order in which they are added. -/
def registered (rules : List (Rule α)) (method : HTTPMethod) : List (Rule α) :=
  rules.filter fun r => r.methods.getLsbD method.number

/-- The address is that of the rule, but for a slash at the end. -/
def Rule.redirects (r : Rule α) (url : Bytes) : Bool :=
  (withoutTrailingSlash r.rule).any fun rule => (ruleMatch rule url).isSome

/-- What a method has for an address. -/
inductive Target (α : Type)
  | redirect
  | rule (r : Rule α) (params : RoutingParams)

/-- A redirection goes before every rule, and a rule before those that are added later. -/
def search (rules : List (Rule α)) (url : Bytes) : Option (Target α) :=
  if rules.any (·.redirects url) then some .redirect
  else rules.findSome? fun r => (ruleMatch r.rule url).map (.rule r)

def Target.handled (url : Bytes) (skipBody : Bool) : Target α → Handled α
  | .redirect => .redirect (url ++ [47]) skipBody
  | .rule r params => .run r params skipBody

/-- The methods that have a rule for an address. -/
def allowed (rules : List (Rule α)) (url : Bytes) : List HTTPMethod :=
  HTTPMethod.all.filter fun m => (search (registered rules m) url).isSome

/-- What the router is for. -/
def answer (rules : List (Rule α)) (method : HTTPMethod) (url : Bytes) : Handled α :=
  match method with
  | .head =>
    match (search (registered rules .head) url).or (search (registered rules .get) url) with
    | some target => target.handled url true
    | none => .answered 404 none
  | .options =>
    if url = ascii "/*" then
      .answered 204 (some (allowText
        (HTTPMethod.all.filter fun m => m ≠ .head && !(registered rules m).isEmpty)))
    else if (allowed rules url).isEmpty then .answered 404 none
    else .answered 204 (some (allowText ((allowed rules url).filter (· ≠ .head))))
  | method =>
    match search (registered rules method) url with
    | some target => target.handled url false
    | none => .answered (if (allowed rules url).isEmpty then 404 else 405) none

end

/-! ### Adding rules -/

section

variable {ι β : Type} [DecidableEq ι] {f : β → Except Fault β}

/-- **Each entry of the array is changed on its own.** -/
theorem updateEach_eq_ok {is : List ι} (his : is.Nodup) : ∀ {g g' : ι → β},
    updateEach f is g = .ok g' ↔ ∀ i, if i ∈ is then f (g i) = .ok (g' i) else g' i = g i := by
  induction is with
  | nil =>
    intro g g'
    simp only [List.not_mem_nil, if_false, ← funext_iff]
    exact ⟨fun h => (Except.ok.inj h).symm, fun h => congrArg Except.ok h.symm⟩
  | cons j is ih =>
    intro g g'
    obtain ⟨hj, his⟩ := List.nodup_cons.mp his
    rw [updateEach, bind_eq_ok]
    constructor
    · rintro ⟨b, hb, h⟩ i
      have hi := (ih his).mp h i
      by_cases hij : i = j
      · subst hij
        rw [if_neg hj, Function.update_self] at hi
        rw [if_pos List.mem_cons_self, hb, hi]
      · rw [Function.update_of_ne hij] at hi
        simpa only [List.mem_cons, hij, false_or] using hi
    · intro h
      refine ⟨g' j, by simpa using h j, (ih his).mpr fun i => ?_⟩
      by_cases hij : i = j
      · subst hij
        rw [if_neg hj, Function.update_self]
      · rw [Function.update_of_ne hij]
        simpa only [List.mem_cons, hij, false_or] using h i

end

/-- The rules that go into the trie for one rule, which gets number `k`. -/
def entries (k : ℕ) (r : Rule α) : List (Bytes × ℕ) :=
  (r.rule, k) :: ((withoutTrailingSlash r.rule).map (·, 1)).toList

/-- The rules that go into the trie. -/
def table : ℕ → List (Rule α) → List (Bytes × ℕ)
  | _, [] => []
  | k, r :: rs => entries k r ++ table (k + 1) rs

theorem addRule_eq (pm : PerMethod α) (r : Rule α) : pm.addRule r =
    (pm.trie.addAll (entries pm.rules.length r)).map (⟨pm.rules ++ [some r], ·⟩) := by
  have hlen : (pm.rules ++ [some r]).length - 1 = pm.rules.length := by simp
  rw [PerMethod.addRule, hlen, entries]
  simp only [Trie.addAll, List.foldlM_cons]
  cases pm.trie.add r.rule pm.rules.length with
  | error f => rfl
  | ok t =>
    cases withoutTrailingSlash r.rule with
    | none => rfl
    | some rule =>
      simp only [ok_bind, Option.map_some, Option.toList_some, List.foldlM_cons, List.foldlM_nil]
      cases t.add rule 1 <;> rfl

theorem addRule_eq_ok {pm pm' : PerMethod α} {r : Rule α} : pm.addRule r = .ok pm' ↔
    pm'.rules = pm.rules ++ [some r] ∧
      pm.trie.addAll (entries pm.rules.length r) = .ok pm'.trie := by
  obtain ⟨rules, trie⟩ := pm'
  rw [addRule_eq]
  cases pm.trie.addAll (entries pm.rules.length r) with
  | error f => simp [Except.map]
  | ok t => simp [Except.map, eq_comm]

theorem addAll_append (t : Trie) (table table' : List (Bytes × ℕ)) :
    t.addAll (table ++ table') = t.addAll table >>= fun t => t.addAll table' :=
  List.foldlM_append

/-- What the rules of one method leave. -/
theorem addRules_perMethod (rs : List (Rule α)) : ∀ pm pm' : PerMethod α,
    rs.foldlM PerMethod.addRule pm = .ok pm' ↔ pm'.rules = pm.rules ++ rs.map some ∧
      pm.trie.addAll (table pm.rules.length rs) = .ok pm'.trie := by
  induction rs with
  | nil =>
    intro pm pm'
    simp [table, Trie.addAll, pure, Except.pure, PerMethod.ext_iff, eq_comm]
  | cons r rs ih =>
    intro pm pm'
    rw [List.foldlM_cons, bind_eq_ok, table, addAll_append, bind_eq_ok]
    constructor
    · rintro ⟨pm₁, hadd, h⟩
      obtain ⟨hrules, htrie⟩ := addRule_eq_ok.mp hadd
      obtain ⟨hrules', htrie'⟩ := (ih pm₁ pm').mp h
      rw [hrules, List.length_append, List.length_singleton] at htrie'
      exact ⟨by simp [hrules', hrules], pm₁.trie, htrie, htrie'⟩
    · rintro ⟨hrules, t, htrie, htrie'⟩
      refine ⟨⟨pm.rules ++ [some r], t⟩, addRule_eq_ok.mpr ⟨rfl, htrie⟩, (ih _ _).mpr ⟨?_, ?_⟩⟩
      · simp [hrules]
      · rw [List.length_append, List.length_singleton]
        exact htrie'

theorem validate_eq_ok (r : Rule α) : r.validate = .ok () ↔ r.rule.head? = some 47 := by
  rw [Rule.validate]
  cases r.rule with
  | nil => simp [throw, throwThe, MonadExceptOf.throw]
  | cons c rest =>
    simp only [List.head?_cons, Option.some.injEq, ne_eq, ite_not]
    split
    · next h => simp [h, pure, Except.pure]
    · next h => simp [h, throw, throwThe, MonadExceptOf.throw]

/-- The rules of each method are added on their own. -/
theorem addRules_eq_ok (rs : List (Rule α)) : ∀ router router' : Router α,
    addRules rs router = .ok router' ↔ (∀ r ∈ rs, r.rule.head? = some 47) ∧
      ∀ m, (registered rs m).foldlM PerMethod.addRule (router m) = .ok (router' m) := by
  induction rs with
  | nil =>
    intro router router'
    rw [addRules]
    constructor
    · intro h
      exact ⟨by simp, fun m => by rw [← Except.ok.inj h]; rfl⟩
    · intro h
      exact congrArg Except.ok (funext fun m => Except.ok.inj (h.2 m))
  | cons r rs ih =>
    intro router router'
    -- what the first rule and the others do at one method
    have hpoint : ∀ m, (registered (r :: rs) m).foldlM PerMethod.addRule (router m) =
        .ok (router' m) ↔
          ∃ pm, (if m ∈ r.foreachMethod then (router m).addRule r = .ok pm else pm = router m) ∧
            (registered rs m).foldlM PerMethod.addRule pm = .ok (router' m) := by
      intro m
      simp only [registered, List.filter_cons, Rule.foreachMethod, List.mem_filter,
        HTTPMethod.mem_all, true_and]
      split
      · rw [List.foldlM_cons, bind_eq_ok]
      · rw [exists_eq_left]
    have hnodup : r.foreachMethod.Nodup := HTTPMethod.nodup_all.filter _
    rw [addRules, bind_eq_ok]
    simp only [internalAddRuleObject, bind_eq_ok, ih, updateEach_eq_ok hnodup, hpoint]
    constructor
    · rintro ⟨⟨⟩, hslash, router₁, hupdate, hrest, hadd⟩
      refine ⟨List.forall_mem_cons.mpr ⟨(validate_eq_ok r).mp hslash, hrest⟩, fun m => ?_⟩
      exact ⟨router₁ m, hupdate m, hadd m⟩
    · rintro ⟨hslash, hadd⟩
      obtain ⟨hfirst, hrest⟩ := List.forall_mem_cons.mp hslash
      choose router₁ hupdate hadd using hadd
      exact ⟨(), (validate_eq_ok r).mpr hfirst, router₁, hupdate, hrest, hadd⟩

theorem perMethodValidate_eq_ok {pm pm' : PerMethod α} : pm.validate = .ok pm' ↔
    pm'.rules = pm.rules ∧ pm.trie.validate = .ok pm'.trie := by
  obtain ⟨rules, trie⟩ := pm'
  rw [PerMethod.validate]
  cases pm.trie.validate with
  | error f => simp
  | ok t => simp [pure, Except.pure, eq_comm]

/-- **What the router holds**: at each method its rules, and a trie of them made ready. -/
theorem routerValidate_eq_ok {rules : List (Rule α)} {router : Router α} :
    Router.validate rules = .ok router ↔ (∀ r ∈ rules, r.rule.head? = some 47) ∧
      ∀ m, (router m).rules = none :: none :: (registered rules m).map some ∧
        ∃ t, Trie.empty.addAll (table 2 (registered rules m)) = .ok t ∧
          t.validate = .ok (router m).trie := by
  rw [Router.validate, bind_eq_ok]
  simp only [addRules_eq_ok, updateEach_eq_ok HTTPMethod.nodup_all, HTTPMethod.mem_all, if_true,
    addRules_perMethod, perMethodValidate_eq_ok]
  constructor
  · rintro ⟨added, ⟨hslash, hadd⟩, hvalid⟩
    refine ⟨hslash, fun m => ⟨(hvalid m).1.trans (hadd m).1, (added m).trie, (hadd m).2, ?_⟩⟩
    exact (hvalid m).2
  · rintro ⟨hslash, hrouter⟩
    choose hrules trie hadd hvalid using hrouter
    exact ⟨fun m => ⟨(router m).rules, trie m⟩, ⟨hslash, fun m => ⟨hrules m, hadd m⟩⟩,
      fun m => ⟨rfl, hvalid m⟩⟩

/-! ### The rules of a method -/

section

variable {rs : List (Rule α)} {k : ℕ}

theorem withoutTrailingSlash_eq_some {rule rule' : Bytes} :
    withoutTrailingSlash rule = some rule' ↔ rule = rule' ++ [47] ∧ rule' ≠ [] := by
  rw [withoutTrailingSlash]
  constructor
  · intro h
    split at h
    · next hrule =>
      obtain ⟨text, rfl⟩ := List.getLast?_eq_some_iff.mp hrule.2
      rw [List.dropLast_concat] at h
      obtain rfl := Option.some.inj h
      refine ⟨rfl, ?_⟩
      rintro rfl
      exact absurd hrule.1 (by decide)
    · exact absurd h (by simp)
  · rintro ⟨rfl, hne⟩
    have hlen := List.length_pos_of_ne_nil hne
    rw [if_pos ⟨by rw [List.length_append, List.length_singleton]; omega, by simp⟩,
      List.dropLast_concat]

theorem mem_entries {r : Rule α} {x : Bytes × ℕ} : x ∈ entries k r ↔
    x = (r.rule, k) ∨ withoutTrailingSlash r.rule = some x.1 ∧ x.2 = 1 := by
  rw [entries, List.mem_cons, Option.mem_toList, Option.map_eq_some_iff]
  refine or_congr_right ⟨?_, fun h => ⟨x.1, h.1, by rw [← h.2]⟩⟩
  rintro ⟨rule, hrule, rfl⟩
  exact ⟨hrule, rfl⟩

/-- The table has the rules with their numbers, and under 1 what is redirected. -/
theorem mem_table (rs : List (Rule α)) : ∀ (k : ℕ) (x : Bytes × ℕ), x ∈ table k rs ↔
    (∃ i r, rs[i]? = some r ∧ x = (r.rule, k + i)) ∨
      ∃ r ∈ rs, withoutTrailingSlash r.rule = some x.1 ∧ x.2 = 1 := by
  induction rs with
  | nil =>
    intro k x
    simp [table]
  | cons r rs ih =>
    intro k x
    rw [table, List.mem_append, mem_entries, ih]
    constructor
    · rintro ((hx | hx) | ⟨i, r', hr', hx⟩ | ⟨r', hr', hx⟩)
      · exact Or.inl ⟨0, r, rfl, hx⟩
      · exact Or.inr ⟨r, List.mem_cons_self, hx⟩
      · exact Or.inl ⟨i + 1, r', hr', by rw [hx, Nat.add_right_comm, Nat.add_assoc]⟩
      · exact Or.inr ⟨r', List.mem_cons_of_mem r hr', hx⟩
    · rintro (⟨i, r', hr', hx⟩ | ⟨r', hr', hx⟩)
      · cases i with
        | zero => exact Or.inl (Or.inl (by rw [hx, Option.some.inj hr', Nat.add_zero]))
        | succ i =>
          refine Or.inr (Or.inl ⟨i, r', hr', ?_⟩)
          rw [hx, Nat.add_right_comm, Nat.add_assoc]
      · rcases List.mem_cons.mp hr' with rfl | hr'
        · exact Or.inl (Or.inr hx)
        · exact Or.inr (Or.inr ⟨r', hr', hx⟩)

/-- The rules of a method start with a slash, with and without one at the end. -/
theorem head_of_mem_table (hslash : ∀ r ∈ rs, r.rule.head? = some 47) {x : Bytes × ℕ}
    (hx : x ∈ table k rs) : x.1.head? = some 47 := by
  rcases (mem_table rs k x).mp hx with ⟨i, r, hr, rfl⟩ | ⟨r, hr, hrule, -⟩
  · exact hslash r (List.mem_of_getElem? hr)
  · obtain ⟨htext, hne⟩ := withoutTrailingSlash_eq_some.mp hrule
    have hhead := hslash r hr
    rwa [htext, List.head?_append_of_ne_nil _ hne] at hhead

theorem tableOk_table (hk : k ≠ 0) : TableOk (table k rs) := by
  intro x hx
  rcases (mem_table rs k x).mp hx with ⟨i, r, -, rfl⟩ | ⟨r, -, hrule, hone⟩
  · exact ⟨by simp [hk], r.noNul⟩
  · refine ⟨by simp [hone], fun hmem => r.noNul ?_⟩
    rw [(withoutTrailingSlash_eq_some.mp hrule).1]
    exact List.mem_append_left [47] hmem

/-! ### The search -/

/-- What a rule number stands for at a method with these rules. -/
inductive Stands (rs : List (Rule α)) (found : Found) : Option (Target α) → Prop
  | none (h : found.ruleIndex = 0) : Stands rs found none
  | redirect (h : found.ruleIndex = 1) : Stands rs found (some .redirect)
  | rule {i : ℕ} {r : Rule α} (h : found.ruleIndex = 2 + i) (hr : rs[i]? = some r) :
    Stands rs found (some (.rule r found.params))

theorem Stands.isSome_iff {found : Found} {target : Option (Target α)}
    (h : Stands rs found target) : target.isSome = true ↔ found.ruleIndex ≠ 0 := by
  cases h with
  | none h => simp [h]
  | redirect h => simp [h]
  | rule h hr => simp [h]

theorem findSome?_eq_some_of_getElem? {β γ : Type} {f : β → Option γ} {a : β} {b : γ}
    (l : List β) : ∀ i : ℕ, l[i]? = some a → f a = some b →
      (∀ (j : ℕ) (a' : β), j < i → l[j]? = some a' → f a' = none) → l.findSome? f = some b := by
  induction l with
  | nil => simp
  | cons a₁ l ih =>
    intro i ha hb hbefore
    cases i with
    | zero =>
      obtain rfl := Option.some.inj ha
      rw [List.findSome?_cons, hb]
    | succ i =>
      rw [List.findSome?_cons, hbefore 0 a₁ (Nat.succ_pos i) rfl]
      exact ih i ha hb fun j a' hj => hbefore (j + 1) a' (Nat.succ_lt_succ hj)

variable [Strtod]

/-- What matches in the table of a method. -/
theorem mem_candidates_table {url : Bytes} {x : Found} : x ∈ candidates (table k rs) url ↔
    (∃ i r, rs[i]? = some r ∧ ruleMatch r.rule url = some x.params ∧ x.ruleIndex = k + i) ∨
      ∃ r ∈ rs, ∃ rule, withoutTrailingSlash r.rule = some rule ∧
        ruleMatch rule url = some x.params ∧ x.ruleIndex = 1 := by
  rw [mem_candidates]
  constructor
  · rintro ⟨rule, hrule, hmatch, hindex⟩
    rcases (mem_table rs k rule).mp hrule with ⟨i, r, hr, rfl⟩ | ⟨r, hr, htext, hone⟩
    · exact Or.inl ⟨i, r, hr, hmatch, hindex.symm⟩
    · exact Or.inr ⟨r, hr, rule.1, htext, hmatch, hindex.symm.trans hone⟩
  · rintro (⟨i, r, hr, hmatch, hindex⟩ | ⟨r, hr, rule, htext, hmatch, hindex⟩)
    · exact ⟨_, (mem_table rs k _).mpr (Or.inl ⟨i, r, hr, rfl⟩), hmatch, hindex.symm⟩
    · exact ⟨(rule, 1), (mem_table rs k _).mpr (Or.inr ⟨r, hr, htext, rfl⟩), hmatch, hindex.symm⟩

theorem any_redirects {url : Bytes} : rs.any (·.redirects url) = true ↔
    ∃ x ∈ candidates (table 2 rs) url, x.ruleIndex = 1 := by
  simp only [List.any_eq_true, Rule.redirects, Option.any_eq_true, Option.isSome_iff_exists]
  constructor
  · rintro ⟨r, hr, rule, htext, params, hmatch⟩
    exact ⟨⟨1, params⟩, mem_candidates_table.mpr (Or.inr ⟨r, hr, rule, htext, hmatch, rfl⟩), rfl⟩
  · rintro ⟨x, hx, hone⟩
    rcases mem_candidates_table.mp hx with ⟨i, r, -, -, hindex⟩ | ⟨r, hr, rule, htext, hmatch, -⟩
    · omega
    · exact ⟨r, hr, rule, htext, x.params, hmatch⟩

/-- **The best candidate is what the search finds.** -/
theorem stands_search {url : Bytes} {found : Found}
    (h : IsBest found (candidates (table 2 rs) url)) : Stands rs found (search rs url) := by
  rw [search]
  split
  · next hred =>
    obtain ⟨x, hx, hone⟩ := any_redirects.mp hred
    have hleast := h.least x hx
    exact .redirect (by omega)
  · next hred =>
    have hrules : ∀ i r params, rs[i]? = some r → ruleMatch r.rule url = some params →
        found.ruleIndex ≠ 0 ∧ found.ruleIndex ≤ 2 + i := fun i r params hr hmatch =>
      h.least ⟨2 + i, params⟩ (mem_candidates_table.mpr (Or.inl ⟨i, r, hr, hmatch, rfl⟩))
    by_cases hzero : found.ruleIndex = 0
    · rw [List.findSome?_eq_none_iff.mpr]
      · exact .none hzero
      · intro r hr
        rw [Option.map_eq_none_iff, Option.eq_none_iff_forall_not_mem]
        intro params hmatch
        obtain ⟨i, hi⟩ := List.mem_iff_getElem?.mp hr
        exact (hrules i r params hi hmatch).1 hzero
    · obtain ⟨i, r, hr, hmatch, hindex⟩ | ⟨r, hr, rule, htext, hmatch, hone⟩ :=
        mem_candidates_table.mp (h.mem hzero)
      · rw [findSome?_eq_some_of_getElem? rs i hr (by rw [hmatch]; rfl)]
        · exact .rule hindex hr
        · intro j r' hj hr'
          rw [Option.map_eq_none_iff, Option.eq_none_iff_forall_not_mem]
          intro params hmatch'
          have hleast := (hrules j r' params hr' hmatch').2
          omega
      · exact absurd (any_redirects.mpr ⟨found, h.mem hzero, hone⟩) hred

/-- What the search finds, it finds at a rule. -/
theorem mem_of_search {url : Bytes} {r : Rule α} {params : RoutingParams}
    (h : search rs url = some (.rule r params)) : r ∈ rs ∧ ruleMatch r.rule url = some params := by
  rw [search] at h
  split at h
  · exact absurd (Option.some.inj h) (by simp)
  · obtain ⟨r', hr', hmatch⟩ := List.exists_of_findSome?_eq_some h
    obtain ⟨params', hparams, htarget⟩ := Option.map_eq_some_iff.mp hmatch
    obtain ⟨rfl, rfl⟩ := Target.rule.inj htarget
    exact ⟨hr', hparams⟩

/-- What the search does not find is at no rule. -/
theorem ruleMatch_of_search {url : Bytes} (h : search rs url = none)
    {r : Rule α} (hr : r ∈ rs) : ruleMatch r.rule url = none := by
  rw [search] at h
  split at h
  · exact absurd h (by simp)
  · exact Option.map_eq_none_iff.mp (List.findSome?_eq_none_iff.mp h r hr)

end

/-! ### The rules that are accepted -/

/-- The rules start with a slash, and those of a method are apart, with and without a slash at
the end. -/
def Accepts (rules : List (Rule α)) : Prop :=
  (∀ r ∈ rules, r.rule.head? = some 47) ∧ ∀ m, Apart (table 2 (registered rules m))

/-- **The rules that a router accepts.** -/
theorem validate_isOk_iff {rules : List (Rule α)} :
    (∃ router, Router.validate rules = .ok router) ↔ Accepts rules := by
  simp only [routerValidate_eq_ok, exists_and_left, Accepts]
  refine and_congr_right fun hslash => ?_
  have hvalid : ∀ m, (∃ t t', Trie.empty.addAll (table 2 (registered rules m)) = .ok t ∧
      t.validate = .ok t') ↔ Apart (table 2 (registered rules m)) := fun m =>
    valid_iff (tableOk_table (by decide)) fun x hx =>
      head_of_mem_table (fun r hr => hslash r (List.mem_of_mem_filter hr)) hx
  simp only [← hvalid]
  constructor
  · rintro ⟨router, hrouter⟩ m
    obtain ⟨-, t, hadd, hvalid⟩ := hrouter m
    exact ⟨t, _, hadd, hvalid⟩
  · intro htrie
    choose t t' hadd hvalid using htrie
    exact ⟨fun m => ⟨_, t' m⟩, fun m => ⟨rfl, t m, hadd m, hvalid m⟩⟩

/-- A trie is empty when its method has no rule. -/
theorem isEmpty_eq {rules : List (Rule α)} {router : Router α}
    (h : Router.validate rules = .ok router) (m : HTTPMethod) :
    router.isEmpty m = (registered rules m).isEmpty := by
  obtain ⟨-, hrouter⟩ := routerValidate_eq_ok.mp h
  obtain ⟨-, t, hadd, hvalid⟩ := hrouter m
  rw [Router.isEmpty, Bool.eq_iff_iff, decide_eq_true_iff, List.isEmpty_iff]
  cases hrs : registered rules m with
  | nil =>
    rw [hrs] at hadd
    obtain rfl := Except.ok.inj hadd
    obtain heq := Except.ok.inj hvalid
    simp [← heq, optimizeAll, Trie.empty]
  | cons r rs =>
    rw [hrs] at hadd
    have htable : TableOk (table 2 (r :: rs)) := tableOk_table (by decide)
    have hmem : (r.rule, 2) ∈ table 2 (r :: rs) := List.mem_cons_self
    obtain ⟨ps, hps⟩ := ((addAll_isOk_iff htable).mp ⟨t, hadd⟩).1 _ hmem
    have hrule : (ps, 2) ∈ (router m).trie.rules := by
      rw [rules_validate hvalid, mem_addAll _ .empty t htable trivial hadd]
      exact Or.inr ⟨_, hmem, hps, rfl⟩
    refine ⟨fun hnil => ?_, fun hnil => absurd hnil (by simp)⟩
    rw [Trie.rules, hnil, ruleIndex_validate hvalid] at hrule
    simp [ownRule, Nodes.rules] at hrule

/-! ### The router and the search -/

section

variable [Strtod] {rules : List (Rule α)} {router : Router α}

theorem find_stands (h : Router.validate rules = .ok router) (m : HTTPMethod) (url : Bytes) :
    Stands (registered rules m) (router.find m url) (search (registered rules m) url) := by
  obtain ⟨-, hrouter⟩ := routerValidate_eq_ok.mp h
  obtain ⟨-, t, hadd, hvalid⟩ := hrouter m
  exact stands_search (find_isBest (tableOk_table (by decide)) hadd hvalid url)

theorem methodsFor_eq (h : Router.validate rules = .ok router) (url : Bytes) :
    router.methodsFor url = allowed rules url := by
  refine List.filter_congr fun m _ => ?_
  rw [Bool.eq_iff_iff, decide_eq_true_iff, (find_stands h m url).isSome_iff]

/-- A rule that is found is run, or answered with a redirection. -/
theorem handle_of_found (h : Router.validate rules = .ok router) {method m : HTTPMethod}
    {url : Bytes} {found : Found} {skipBody : Bool} {target : Target α}
    (hinitial : router.handleInitial method url = .found m found skipBody)
    (hstands : Stands (registered rules m) found (some target)) :
    router.handle method url = .ok (target.handled url skipBody) := by
  obtain ⟨-, hrouter⟩ := routerValidate_eq_ok.mp h
  have hrules := (hrouter m).1
  rw [Router.handle, hinitial]
  cases hstands with
  | redirect hindex =>
    simp only [hrules, hindex]
    rfl
  | rule hindex hr =>
    simp only [hrules, hindex, Nat.add_comm 2, List.getElem?_cons_succ, List.getElem?_map, hr,
      Option.map_some]
    rw [if_neg (by omega)]
    rfl

theorem handleInitial_of_ne {method : HTTPMethod} {url : Bytes} (hhead : method ≠ .head)
    (hoptions : method ≠ .options) : router.handleInitial method url =
      if (router.find method url).ruleIndex ≠ 0 then
        .found method (router.find method url) false
      else if (router.methodsFor url).isEmpty then .catchAll 404 else .catchAll 405 := by
  cases method <;> first | contradiction | rfl

theorem answer_of_ne {method : HTTPMethod} {url : Bytes} (hhead : method ≠ .head)
    (hoptions : method ≠ .options) : answer rules method url =
      match search (registered rules method) url with
      | some target => target.handled url false
      | none => .answered (if (allowed rules url).isEmpty then 404 else 405) none := by
  cases method <;> first | contradiction | rfl

/-- **The router does what the search says.** -/
theorem handle_eq_answer (h : Router.validate rules = .ok router) (method : HTTPMethod)
    (url : Bytes) : router.handle method url = .ok (answer rules method url) := by
  by_cases hhead : method = .head
  · subst hhead
    have hstands := find_stands h .head url
    have hstandsGet := find_stands h .get url
    rw [answer]
    cases htarget : search (registered rules .head) url with
    | some target =>
      rw [htarget] at hstands
      have hne := hstands.isSome_iff.mp rfl
      exact handle_of_found h (m := .head) (by rw [Router.handleInitial, if_pos hne]) hstands
    | none =>
      have hzero : ¬(router.find .head url).ruleIndex ≠ 0 := by
        rw [← hstands.isSome_iff, htarget]
        simp
      rw [Option.none_or]
      cases htargetGet : search (registered rules .get) url with
      | some target =>
        rw [htargetGet] at hstandsGet
        have hne := hstandsGet.isSome_iff.mp rfl
        exact handle_of_found h (m := .get)
          (by rw [Router.handleInitial, if_neg hzero, if_pos hne]) hstandsGet
      | none =>
        have hzeroGet : ¬(router.find .get url).ruleIndex ≠ 0 := by
          rw [← hstandsGet.isSome_iff, htargetGet]
          simp
        rw [Router.handle, Router.handleInitial, if_neg hzero, if_neg hzeroGet]
        rfl
  by_cases hoptions : method = .options
  · subst hoptions
    rw [Router.handle, Router.handleInitial, answer, methodsFor_eq h]
    simp only [isEmpty_eq h]
    by_cases hserver : url = ascii "/*"
    · rw [if_pos hserver, if_pos hserver]
      rfl
    · rw [if_neg hserver, if_neg hserver]
      by_cases hempty : (allowed rules url).isEmpty = true
      · rw [if_pos hempty, if_pos hempty]
        rfl
      · rw [if_neg hempty, if_neg hempty]
        rfl
  have hstands := find_stands h method url
  rw [answer_of_ne hhead hoptions]
  cases htarget : search (registered rules method) url with
  | some target =>
    rw [htarget] at hstands
    have hne := hstands.isSome_iff.mp rfl
    exact handle_of_found h (by rw [handleInitial_of_ne hhead hoptions, if_pos hne]) hstands
  | none =>
    have hzero : ¬(router.find method url).ruleIndex ≠ 0 := by
      rw [← hstands.isSome_iff, htarget]
      simp
    rw [Router.handle, handleInitial_of_ne hhead hoptions, if_neg hzero, methodsFor_eq h]
    by_cases hempty : (allowed rules url).isEmpty = true
    · rw [if_pos hempty, if_pos hempty]
      rfl
    · rw [if_neg hempty, if_neg hempty]
      rfl

/-- **A router accepts rules that can be told apart, and then does what the search says.** -/
theorem router_correct (rules : List (Rule α)) :
    ((∃ router, Router.validate rules = .ok router) ↔ Accepts rules) ∧
      ∀ router, Router.validate rules = .ok router → ∀ method url,
        router.handle method url = .ok (answer rules method url) :=
  ⟨validate_isOk_iff, fun _ h => handle_eq_answer h⟩

/-- `OPTIONS` runs no rule. -/
theorem handle_options (router : Router α) (url : Bytes) :
    ∃ code allow, router.handle .options url = .ok (.answered code allow) := by
  rw [Router.handle, Router.handleInitial]
  split_ifs <;> exact ⟨_, _, rfl⟩

end

end Routing
end JobScheduler
