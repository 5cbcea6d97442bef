import JobScheduler.Controller
import JobScheduler.Lib.Spelling
import JobScheduler.Routing.Router

/-!
# The addresses of the server

The rules that `register_routes` gives to Crow, with the one for files that Crow adds when it is
run, and what the router makes of a method and an address: what a handler is called with, or an
answer with status 404 or 405.

## Main definitions

* `routes` — the rules of the server.
* `Reaches` — the addresses of the handlers.
* `Answers` — what the router does for a method at an address.

## Main results

* `readInt_idText` — every id has an address.
* `handle_routes` — **the addresses that exist, and the answers to the others.**
-/

namespace JobScheduler

open CText Routing

/-! ### Rules -/

/-- The handlers. -/
inductive Route
  | root
  | createTask
  | deleteTask
  | jobs
  | job
  | pauseJob
  | resumeJob
  /-- The handler of `add_static_dir`. -/
  | staticFile
  deriving DecidableEq, Repr

/-- What a handler is called with. -/
inductive Called
  | request (req : Request)
  /-- `file_path_partial`. -/
  | staticFile (filePath : Bytes)

/-- `CROW_ROUTE(app, url).methods(method)`, with the handler. -/
def crowRoute (url : Bytes) (method : HTTPMethod) (handler : Route) (noNul : (0 : UInt8) ∉ url) :
    Rule Route :=
  ⟨url, noNul, methodBit method, handler⟩

/-- `register_routes`, and `add_static_dir` of `run`.  A rule without `methods` is for `GET`. -/
def routes : List (Rule Route) :=
  [crowRoute (ascii "/") .get .root (by decide),
    crowRoute (ascii "/CreateTask") .post .createTask (by decide),
    crowRoute (ascii "/DeleteTask/<int>") .delete .deleteTask (by decide),
    crowRoute (ascii "/Jobs") .get .jobs (by decide),
    crowRoute (ascii "/job/<int>") .get .job (by decide),
    crowRoute (ascii "/job/pause/<int>") .post .pauseJob (by decide),
    crowRoute (ascii "/job/resume/<int>") .post .resumeJob (by decide),
    crowRoute (ascii "/static/<path>") .get .staticFile (by decide)]

/-- What a handler is called with: `body` of the request, or the first parameter of its type in the
address. -/
def Route.call (body : Bytes) (params : RoutingParams) : Route → Option Called
  | .root => some (.request .root)
  | .createTask => some (.request (.createTask body))
  | .deleteTask => params.intParams[0]?.map fun id => .request (.deleteTask id)
  | .jobs => some (.request .jobs)
  | .job => params.intParams[0]?.map fun id => .request (.job id)
  | .pauseJob => params.intParams[0]?.map fun id => .request (.pauseJob id)
  | .resumeJob => params.intParams[0]?.map fun id => .request (.resumeJob id)
  | .staticFile => params.stringParams[0]?.map .staticFile

/-- The addresses of the handlers. -/
inductive Reaches (body : Bytes) : HTTPMethod → Bytes → Called → Prop
  | root : Reaches body .get (ascii "/") (.request .root)
  | createTask : Reaches body .post (ascii "/CreateTask") (.request (.createTask body))
  | deleteTask {text : Bytes} {id : Int64} (h : readInt text = some (id, [])) :
    Reaches body .delete (ascii "/DeleteTask/" ++ text) (.request (.deleteTask id))
  | jobs : Reaches body .get (ascii "/Jobs") (.request .jobs)
  | job {text : Bytes} {id : Int64} (h : readInt text = some (id, [])) :
    Reaches body .get (ascii "/job/" ++ text) (.request (.job id))
  | pauseJob {text : Bytes} {id : Int64} (h : readInt text = some (id, [])) :
    Reaches body .post (ascii "/job/pause/" ++ text) (.request (.pauseJob id))
  | resumeJob {text : Bytes} {id : Int64} (h : readInt text = some (id, [])) :
    Reaches body .post (ascii "/job/resume/" ++ text) (.request (.resumeJob id))
  | staticFile {filePath : Bytes} (h : filePath ≠ []) :
    Reaches body .get (ascii "/static/" ++ filePath) (.staticFile filePath)

/-! ### What the rules match -/

/-- Characters stand for themselves. -/
theorem cutRule_append (text rest : Bytes) (h : (60 : UInt8) ∉ text) :
    cutRule (text ++ rest).length (text ++ rest) =
      (cutRule rest.length rest).map (text.map .char ++ ·) := by
  induction text with
  | nil => simp
  | cons c text ih =>
    rw [List.mem_cons, not_or] at h
    rw [List.cons_append, List.length_cons, cutRule, if_neg (Ne.symm h.1), ih h.2, Option.map_map]
    rfl

section

variable [Strtod]

theorem ruleMatch_append (text rest url : Bytes) (h : (60 : UInt8) ∉ text) :
    ruleMatch (text ++ rest) url =
      if text.isPrefixOf url then ruleMatch rest (url.drop text.length) else none := by
  rw [ruleMatch, cutRule_append text rest h, ruleMatch]
  cases cutRule rest.length rest with
  | none => simp
  | some ps => rw [Option.map_some, Option.bind_some, follow_chars, Option.bind_some]

/-- A rule without parameters matches its text. -/
theorem ruleMatch_text {text url : Bytes} {params : RoutingParams} (h : (60 : UInt8) ∉ text) :
    ruleMatch text url = some params ↔ url = text ∧ params = .empty := by
  have hmatch := ruleMatch_append text [] url h
  rw [List.append_nil] at hmatch
  rw [hmatch]
  constructor
  · intro hsome
    split at hsome
    · next htext =>
      obtain ⟨rest, rfl⟩ := List.isPrefixOf_iff_prefix.mp htext
      rw [List.drop_left] at hsome
      cases rest with
      | nil => exact ⟨List.append_nil text, (Option.some.inj hsome).symm⟩
      | cons c rest => exact absurd hsome (by simp [ruleMatch, cutRule, follow])
    · simp at hsome
  · rintro ⟨rfl, rfl⟩
    rw [if_pos (List.isPrefixOf_iff_prefix.mpr (List.prefix_refl _)), List.drop_length]
    rfl

/-- A rule that ends in a parameter matches its text with what the parameter reads behind it. -/
theorem ruleMatch_param {text name url : Bytes} {t : ParamType} {params : RoutingParams}
    (h : (60 : UInt8) ∉ text) (hname : cutRule name.length name = some [.param t]) :
    ruleMatch (text ++ name) url = some params ↔
      ∃ rest, url = text ++ rest ∧ t.read rest .empty = some ([], params) := by
  have hmatch : ∀ rest, ruleMatch name rest = some params ↔
      t.read rest .empty = some ([], params) := by
    intro rest
    rw [ruleMatch, hname, Option.bind_some, follow]
    cases t.read rest .empty with
    | none => simp
    | some r =>
      obtain ⟨left, params'⟩ := r
      cases left <;> simp [follow]
  rw [ruleMatch_append text name url h]
  constructor
  · intro hsome
    split at hsome
    · next htext =>
      obtain ⟨rest, rfl⟩ := List.isPrefixOf_iff_prefix.mp htext
      rw [List.drop_left, hmatch] at hsome
      exact ⟨rest, rfl, hsome⟩
    · simp at hsome
  · rintro ⟨rest, rfl, hread⟩
    rw [if_pos (List.isPrefixOf_iff_prefix.mpr (List.prefix_append _ _)), List.drop_left, hmatch]
    exact hread

/-- A rule that ends in a number matches its text with a number behind it. -/
theorem ruleMatch_int {text url : Bytes} {params : RoutingParams} (h : (60 : UInt8) ∉ text) :
    ruleMatch (text ++ ascii "<int>") url = some params ↔
      ∃ digits id, url = text ++ digits ∧ readInt digits = some (id, []) ∧
        params = ⟨[id], [], [], []⟩ := by
  rw [ruleMatch_param h rfl]
  refine exists_congr fun digits => ?_
  rw [exists_and_left, and_congr_right_iff]
  intro _
  rw [ParamType.read, Option.map_eq_some_iff]
  constructor
  · rintro ⟨⟨id, rest⟩, hread, heq⟩
    obtain ⟨rfl, rfl⟩ := Prod.mk.inj heq
    exact ⟨id, hread, rfl⟩
  · rintro ⟨id, hread, rfl⟩
    exact ⟨(id, []), hread, rfl⟩

/-- A rule that ends in a path matches its text with anything behind it. -/
theorem ruleMatch_path {text url : Bytes} {params : RoutingParams} (h : (60 : UInt8) ∉ text) :
    ruleMatch (text ++ ascii "<path>") url = some params ↔
      ∃ path, url = text ++ path ∧ path ≠ [] ∧ params = ⟨[], [], [], [path]⟩ := by
  rw [ruleMatch_param h rfl]
  refine exists_congr fun path => and_congr_right fun _ => ?_
  cases path with
  | nil => simp [ParamType.read]
  | cons c path =>
    simp only [ParamType.read, List.isEmpty_cons, Bool.false_eq_true, if_false, ne_eq, reduceCtorEq,
      not_false_eq_true, true_and, Option.some.injEq, Prod.mk.injEq]
    exact eq_comm

end

/-! ### The rules of each method -/

theorem registered_get : registered routes .get =
    [crowRoute (ascii "/") .get .root (by decide), crowRoute (ascii "/Jobs") .get .jobs (by decide),
      crowRoute (ascii "/job/" ++ ascii "<int>") .get .job (by decide),
      crowRoute (ascii "/static/" ++ ascii "<path>") .get .staticFile (by decide)] := rfl

theorem registered_post : registered routes .post =
    [crowRoute (ascii "/CreateTask") .post .createTask (by decide),
      crowRoute (ascii "/job/pause/" ++ ascii "<int>") .post .pauseJob (by decide),
      crowRoute (ascii "/job/resume/" ++ ascii "<int>") .post .resumeJob (by decide)] := rfl

theorem registered_delete : registered routes .delete =
    [crowRoute (ascii "/DeleteTask/" ++ ascii "<int>") .delete .deleteTask (by decide)] := rfl

theorem registered_of_ne {m : HTTPMethod} (hget : m ≠ .get) (hpost : m ≠ .post)
    (hdelete : m ≠ .delete) : registered routes m = [] := by
  cases m <;> first | contradiction | rfl

section

variable [Strtod]

/-- A rule without a parameter calls its handler at one address. -/
theorem call_of_text {text body url : Bytes} {handler : Route} {params : RoutingParams}
    {c : Called} (h : (60 : UInt8) ∉ text) (hmatch : ruleMatch text url = some params)
    (hcall : handler.call body params = some c) :
    url = text ∧ handler.call body .empty = some c := by
  obtain ⟨rfl, rfl⟩ := (ruleMatch_text h).mp hmatch
  exact ⟨rfl, hcall⟩

/-- A rule with a number calls it with the number. -/
theorem call_of_int {text body url : Bytes} {handler : Route} {params : RoutingParams}
    {c : Called} (h : (60 : UInt8) ∉ text)
    (hmatch : ruleMatch (text ++ ascii "<int>") url = some params)
    (hcall : handler.call body params = some c) :
    ∃ digits id, url = text ++ digits ∧ readInt digits = some (id, []) ∧
      handler.call body ⟨[id], [], [], []⟩ = some c := by
  obtain ⟨digits, id, rfl, hread, rfl⟩ := (ruleMatch_int h).mp hmatch
  exact ⟨digits, id, rfl, hread, hcall⟩

/-- The rules on addresses that they match. -/
theorem ruleMatch_self {text : Bytes} (h : (60 : UInt8) ∉ text) :
    ruleMatch text text = some .empty :=
  (ruleMatch_text h).mpr ⟨rfl, rfl⟩

theorem ruleMatch_append_int {text digits : Bytes} {id : Int64} (h : (60 : UInt8) ∉ text)
    (hread : readInt digits = some (id, [])) :
    ruleMatch (text ++ ascii "<int>") (text ++ digits) = some ⟨[id], [], [], []⟩ :=
  (ruleMatch_int h).mpr ⟨digits, id, rfl, hread, rfl⟩

theorem ruleMatch_append_path {text path : Bytes} (h : (60 : UInt8) ∉ text) (hpath : path ≠ []) :
    ruleMatch (text ++ ascii "<path>") (text ++ path) = some ⟨[], [], [], [path]⟩ :=
  (ruleMatch_path h).mpr ⟨path, rfl, hpath, rfl⟩

/-- An address of a handler is matched by the rule of the handler. -/
theorem Reaches.exists_ruleMatch {body url : Bytes} {m : HTTPMethod} {c : Called}
    (h : Reaches body m url c) : ∃ r ∈ registered routes m, ∃ params,
      ruleMatch r.rule url = some params ∧ r.handler.call body params = some c := by
  cases h with
  | root =>
    rw [registered_get]
    exact ⟨_, .head _, .empty, ruleMatch_self (by decide), rfl⟩
  | jobs =>
    rw [registered_get]
    exact ⟨_, .tail _ (.head _), .empty, ruleMatch_self (by decide), rfl⟩
  | job hread =>
    rw [registered_get]
    exact ⟨_, .tail _ (.tail _ (.head _)), _, ruleMatch_append_int (by decide) hread, rfl⟩
  | staticFile hpath =>
    rw [registered_get]
    exact ⟨_, .tail _ (.tail _ (.tail _ (.head _))), _, ruleMatch_append_path (by decide) hpath,
      rfl⟩
  | createTask =>
    rw [registered_post]
    exact ⟨_, .head _, .empty, ruleMatch_self (by decide), rfl⟩
  | pauseJob hread =>
    rw [registered_post]
    exact ⟨_, .tail _ (.head _), _, ruleMatch_append_int (by decide) hread, rfl⟩
  | resumeJob hread =>
    rw [registered_post]
    exact ⟨_, .tail _ (.tail _ (.head _)), _, ruleMatch_append_int (by decide) hread, rfl⟩
  | deleteTask hread =>
    rw [registered_delete]
    exact ⟨_, .head _, _, ruleMatch_append_int (by decide) hread, rfl⟩

/-- What a rule matches is an address of its handler. -/
theorem reaches_of_ruleMatch {body url : Bytes} {m : HTTPMethod} {c : Called} {r : Rule Route}
    {params : RoutingParams} (hr : r ∈ registered routes m)
    (hmatch : ruleMatch r.rule url = some params) (hcall : r.handler.call body params = some c) :
    Reaches body m url c := by
  by_cases hget : m = .get
  · subst hget
    simp only [registered_get, List.mem_cons, List.not_mem_nil, or_false] at hr
    rcases hr with rfl | rfl | rfl | rfl
    · obtain ⟨rfl, hcall⟩ := call_of_text (by decide) hmatch hcall
      obtain rfl := Option.some.inj hcall
      exact .root
    · obtain ⟨rfl, hcall⟩ := call_of_text (by decide) hmatch hcall
      obtain rfl := Option.some.inj hcall
      exact .jobs
    · obtain ⟨digits, id, rfl, hread, hcall⟩ := call_of_int (by decide) hmatch hcall
      obtain rfl := Option.some.inj hcall
      exact .job hread
    · obtain ⟨path, rfl, hpath, rfl⟩ := (ruleMatch_path (by decide)).mp hmatch
      obtain rfl := Option.some.inj hcall
      exact .staticFile hpath
  by_cases hpost : m = .post
  · subst hpost
    simp only [registered_post, List.mem_cons, List.not_mem_nil, or_false] at hr
    rcases hr with rfl | rfl | rfl
    · obtain ⟨rfl, hcall⟩ := call_of_text (by decide) hmatch hcall
      obtain rfl := Option.some.inj hcall
      exact .createTask
    · obtain ⟨digits, id, rfl, hread, hcall⟩ := call_of_int (by decide) hmatch hcall
      obtain rfl := Option.some.inj hcall
      exact .pauseJob hread
    · obtain ⟨digits, id, rfl, hread, hcall⟩ := call_of_int (by decide) hmatch hcall
      obtain rfl := Option.some.inj hcall
      exact .resumeJob hread
  by_cases hdelete : m = .delete
  · subst hdelete
    simp only [registered_delete, List.mem_cons, List.not_mem_nil, or_false] at hr
    obtain rfl := hr
    obtain ⟨digits, id, rfl, hread, hcall⟩ := call_of_int (by decide) hmatch hcall
    obtain rfl := Option.some.inj hcall
    exact .deleteTask hread
  rw [registered_of_ne hget hpost hdelete] at hr
  exact absurd hr List.not_mem_nil

/-- **An address reaches a handler when a rule of its method matches.** -/
theorem reaches_iff {body url : Bytes} {m : HTTPMethod} {c : Called} :
    Reaches body m url c ↔ ∃ r ∈ registered routes m, ∃ params,
      ruleMatch r.rule url = some params ∧ r.handler.call body params = some c := by
  constructor
  · exact Reaches.exists_ruleMatch
  · intro h
    obtain ⟨r, hr, params, hmatch, hcall⟩ := h
    exact reaches_of_ruleMatch hr hmatch hcall

end

/-- Texts with different bytes at one place are different. -/
theorem ne_of_getD {s t : Bytes} (i : ℕ) (a b : UInt8) (hs : s.getD i 0 = a)
    (ht : t.getD i 0 = b) (hne : a ≠ b) : s ≠ t := by
  rintro rfl
  exact hne (hs.symm.trans ht)

/-- A text is behind another one in one way, and read in one way. -/
theorem readInt_unique {text digits digits' : Bytes} {id id' : Int64}
    (h : readInt digits = some (id, [])) (h' : readInt digits' = some (id', []))
    (heq : text ++ digits = text ++ digits') : id = id' := by
  rw [List.append_cancel_left heq, h'] at h
  exact (Prod.mk.inj (Option.some.inj h)).1.symm

/-- **An address reaches one handler.**  Those of `GET` differ at the second byte, those of `POST`
at the sixth. -/
theorem Reaches.unique {body url : Bytes} {m : HTTPMethod} {c c' : Called}
    (h : Reaches body m url c) (h' : Reaches body m url c') : c = c' := by
  generalize hurl : url = url' at h'
  cases h with
  | root =>
    cases h' with
    | root => rfl
    | jobs => exact absurd hurl (ne_of_getD 1 0 74 rfl rfl (by decide))
    | job => exact absurd hurl (ne_of_getD 1 0 106 rfl rfl (by decide))
    | staticFile => exact absurd hurl (ne_of_getD 1 0 115 rfl rfl (by decide))
  | jobs =>
    cases h' with
    | jobs => rfl
    | root => exact absurd hurl (ne_of_getD 1 74 0 rfl rfl (by decide))
    | job => exact absurd hurl (ne_of_getD 1 74 106 rfl rfl (by decide))
    | staticFile => exact absurd hurl (ne_of_getD 1 74 115 rfl rfl (by decide))
  | job hread =>
    cases h' with
    | job hread' => rw [readInt_unique hread hread' hurl]
    | root => exact absurd hurl (ne_of_getD 1 106 0 rfl rfl (by decide))
    | jobs => exact absurd hurl (ne_of_getD 1 106 74 rfl rfl (by decide))
    | staticFile => exact absurd hurl (ne_of_getD 1 106 115 rfl rfl (by decide))
  | staticFile =>
    cases h' with
    | staticFile => rw [List.append_cancel_left hurl]
    | root => exact absurd hurl (ne_of_getD 1 115 0 rfl rfl (by decide))
    | jobs => exact absurd hurl (ne_of_getD 1 115 74 rfl rfl (by decide))
    | job => exact absurd hurl (ne_of_getD 1 115 106 rfl rfl (by decide))
  | createTask =>
    cases h' with
    | createTask => rfl
    | pauseJob => exact absurd hurl (ne_of_getD 5 116 112 rfl rfl (by decide))
    | resumeJob => exact absurd hurl (ne_of_getD 5 116 114 rfl rfl (by decide))
  | pauseJob hread =>
    cases h' with
    | pauseJob hread' => rw [readInt_unique hread hread' hurl]
    | createTask => exact absurd hurl (ne_of_getD 5 112 116 rfl rfl (by decide))
    | resumeJob => exact absurd hurl (ne_of_getD 5 112 114 rfl rfl (by decide))
  | resumeJob hread =>
    cases h' with
    | resumeJob hread' => rw [readInt_unique hread hread' hurl]
    | createTask => exact absurd hurl (ne_of_getD 5 114 116 rfl rfl (by decide))
    | pauseJob => exact absurd hurl (ne_of_getD 5 114 112 rfl rfl (by decide))
  | deleteTask hread =>
    cases h' with
    | deleteTask hread' => rw [readInt_unique hread hread' hurl]

section

variable [Strtod]

/-- A rule that matches has what its handler needs. -/
theorem exists_call {r : Rule Route} {m : HTTPMethod} (hr : r ∈ registered routes m)
    {url : Bytes} {params : RoutingParams} (hmatch : ruleMatch r.rule url = some params)
    (body : Bytes) : ∃ c, r.handler.call body params = some c := by
  have hroutes := List.mem_of_mem_filter hr
  simp only [routes, List.mem_cons, List.not_mem_nil, or_false] at hroutes
  have hint : ∀ text : Bytes, (60 : UInt8) ∉ text → r.rule = text ++ ascii "<int>" →
      ∃ id, params = ⟨[id], [], [], []⟩ := fun text h htext => by
    obtain ⟨-, id, -, -, hparams⟩ := (ruleMatch_int h).mp (htext ▸ hmatch)
    exact ⟨id, hparams⟩
  rcases hroutes with rfl | rfl | rfl | rfl | rfl | rfl | rfl | rfl
  · exact ⟨_, rfl⟩
  · exact ⟨_, rfl⟩
  · obtain ⟨id, rfl⟩ := hint (ascii "/DeleteTask/") (by decide) rfl
    exact ⟨_, rfl⟩
  · exact ⟨_, rfl⟩
  · obtain ⟨id, rfl⟩ := hint (ascii "/job/") (by decide) rfl
    exact ⟨_, rfl⟩
  · obtain ⟨id, rfl⟩ := hint (ascii "/job/pause/") (by decide) rfl
    exact ⟨_, rfl⟩
  · obtain ⟨id, rfl⟩ := hint (ascii "/job/resume/") (by decide) rfl
    exact ⟨_, rfl⟩
  · obtain ⟨path, -, -, rfl⟩ := (@ruleMatch_path _ (ascii "/static/") _ _ (by decide)).mp hmatch
    exact ⟨_, rfl⟩

/-- No rule ends in a slash but the first, which is one. -/
theorem not_redirects {r : Rule Route} (hr : r ∈ routes) (url : Bytes) :
    r.redirects url = false := by
  have htext : ∀ r ∈ routes, withoutTrailingSlash r.rule = none := by decide
  rw [Rule.redirects, htext r hr]
  rfl

/-- **The search through the rules finds the handler of an address.** -/
theorem search_routes (m : HTTPMethod) (url : Bytes) :
    (search (registered routes m) url = none ∧ ∀ body c, ¬ Reaches body m url c) ∨
      ∃ r params, search (registered routes m) url = some (.rule r params) ∧
        (∀ body, ∃ c, Reaches body m url c) ∧
          ∀ body c, Reaches body m url c ↔ r.handler.call body params = some c := by
  cases hsearch : search (registered routes m) url with
  | none =>
    refine Or.inl ⟨rfl, fun body c hreach => ?_⟩
    obtain ⟨r, hr, params, hmatch, -⟩ := reaches_iff.mp hreach
    rw [ruleMatch_of_search hsearch hr] at hmatch
    exact absurd hmatch (by simp)
  | some target =>
    cases target with
    | redirect =>
      rw [search, if_neg] at hsearch
      · obtain ⟨r, -, hmatch⟩ := List.exists_of_findSome?_eq_some hsearch
        obtain ⟨params, -, htarget⟩ := Option.map_eq_some_iff.mp hmatch
        exact absurd htarget (by simp)
      · intro hany
        obtain ⟨r, hr, hred⟩ := List.any_eq_true.mp hany
        rw [not_redirects (List.mem_of_mem_filter hr)] at hred
        exact absurd hred (by simp)
    | rule r params =>
      obtain ⟨hr, hmatch⟩ := mem_of_search hsearch
      have hreach : ∀ body c, r.handler.call body params = some c → Reaches body m url c :=
        fun body c hcall => reaches_iff.mpr ⟨r, hr, params, hmatch, hcall⟩
      refine Or.inr ⟨r, params, rfl, fun body => ?_, fun body c => ⟨fun h => ?_, hreach body c⟩⟩
      · obtain ⟨c, hcall⟩ := exists_call hr hmatch body
        exact ⟨c, hreach body c hcall⟩
      · obtain ⟨c', hcall'⟩ := exists_call hr hmatch body
        rw [hcall', h.unique (hreach body c' hcall')]

end

/-! ### The addresses that exist -/

/-- A number is read off its text. -/
theorem readInt_decimalInt (n : Int64) : readInt (decimalInt n.toInt) = some (n, []) := by
  have hlow := Int64.minValue_le_toInt n
  have hhigh := Int64.toInt_le n
  have hall : ∀ c ∈ decimal n.toInt.natAbs, isDigit c = true :=
    List.all_eq_true.mp isDigit_decimal
  have htake := List.takeWhile_eq_self_iff.mpr hall
  have hdrop := List.dropWhile_eq_nil_iff.mpr hall
  have hne : (decimal n.toInt.natAbs).isEmpty = false := by simp [decimal_ne_nil]
  rw [decimalInt]
  split
  · next hneg =>
    have hvalue : -((n.toInt.natAbs : ℕ) : ℤ) = n.toInt := by omega
    have hsign : scanSign (45 :: decimal n.toInt.natAbs) = (true, decimal n.toInt.natAbs) := rfl
    rw [readInt, hsign]
    simp only [htake, hdrop, hne, digitsValue_decimal, if_true, hvalue, Bool.false_eq_true,
      if_false]
    rw [if_neg (by omega), Int64.ofInt_toInt]
  · next hpos =>
    have hvalue : ((n.toInt.natAbs : ℕ) : ℤ) = n.toInt := by omega
    rw [readInt, scanSign_digits (decimal_ne_nil _) isDigit_decimal]
    simp only [htake, hdrop, hne, digitsValue_decimal, hvalue, Bool.false_eq_true, if_false]
    rw [if_neg (by omega), Int64.ofInt_toInt]

/-- **Every id has an address**: the number that the answers print is read as the id. -/
theorem readInt_idText (id : Int32) : readInt (idText id) = some (bindInt id, []) := by
  rw [← readInt_decimalInt (bindInt id), bindInt, Int32.toInt_toInt64, idText]

/-- The rules of the server are accepted. -/
theorem routes_valid : ∃ router, Router.validate routes = .ok router := by
  refine validate_isOk_iff.mpr ⟨by decide, fun m => ?_⟩
  by_cases hget : m = .get
  · subst hget
    exact apart_of_nodup (by decide) (by decide)
  by_cases hpost : m = .post
  · subst hpost
    exact apart_of_nodup (by decide) (by decide)
  by_cases hdelete : m = .delete
  · subst hdelete
    exact apart_of_nodup (by decide) (by decide)
  rw [registered_of_ne hget hpost hdelete]
  exact apart_of_nodup rfl List.nodup_nil

section

variable [Strtod]

/-- What the server does for a method at an address, where `asked` is the method whose rules it
looks at. -/
structure Answers (router : Router Route) (m asked : HTTPMethod) (url : Bytes) : Prop where
  /-- A handler is run at its addresses. -/
  run : ∀ body c, Reaches body asked url c ↔ ∃ r params,
    router.handle m url = .ok (.run r params (decide (m = .head))) ∧
      r.handler.call body params = some c
  /-- The address of a handler for other methods. -/
  notAllowed : m ≠ .head → (∀ body c, ¬ Reaches body asked url c) →
    (∃ m' body c, Reaches body m' url c) → router.handle m url = .ok (.answered 405 none)
  /-- The address of no handler, or of none that `HEAD` asks for. -/
  notFound : (∀ body c, ¬ Reaches body asked url c) →
    (m = .head ∨ ∀ m' body c, ¬ Reaches body m' url c) →
      router.handle m url = .ok (.answered 404 none)

theorem allowed_routes {url : Bytes} : (allowed routes url).isEmpty = true ↔
    ∀ m body c, ¬ Reaches body m url c := by
  rw [List.isEmpty_iff, allowed, List.filter_eq_nil_iff]
  simp only [HTTPMethod.mem_all, true_imp_iff, Bool.not_eq_true, Option.isSome_eq_false_iff,
    Option.isNone_iff_eq_none]
  refine forall_congr' fun m => ?_
  rcases search_routes m url with ⟨hnone, hreach⟩ | ⟨r, params, hsome, hexists, -⟩
  · exact iff_of_true hnone hreach
  · refine iff_of_false (by simp [hsome]) fun h => ?_
    obtain ⟨c, hc⟩ := hexists []
    exact h [] c hc

/-- A handler is run at its addresses only. -/
theorem Answers.reaches {router : Router Route} {m asked : HTTPMethod} {url : Bytes}
    (h : Answers router m asked url) {r : Rule Route} {params : RoutingParams} {skipBody : Bool}
    (hrun : router.handle m url = .ok (.run r params skipBody)) {body : Bytes} {c : Called}
    (hcall : r.handler.call body params = some c) : Reaches body asked url c := by
  by_cases hnot : ∀ body c, ¬ Reaches body asked url c
  · by_cases hcode : m = .head ∨ ∀ m' body c, ¬ Reaches body m' url c
    · rw [h.notFound hnot hcode] at hrun
      exact absurd (Except.ok.inj hrun) (by simp)
    · push Not at hcode
      rw [h.notAllowed hcode.1 hnot hcode.2] at hrun
      exact absurd (Except.ok.inj hrun) (by simp)
  · push Not at hnot
    obtain ⟨body', c', hreach⟩ := hnot
    obtain ⟨r', params', hrun', -⟩ := (h.run body' c').mp hreach
    rw [hrun] at hrun'
    obtain ⟨rfl, rfl, rfl⟩ := Handled.run.inj (Except.ok.inj hrun')
    exact (h.run body c).mpr ⟨r, params, hrun, hcall⟩

/-- What the search finds is what is answered. -/
theorem answers_of_search {router : Router Route} {m asked : HTTPMethod} {url : Bytes}
    (h : router.handle m url = .ok (match search (registered routes asked) url with
      | some target => target.handled url (decide (m = .head))
      | none =>
        .answered (if m = .head ∨ (allowed routes url).isEmpty = true then 404 else 405) none)) :
    Answers router m asked url := by
  rcases search_routes asked url with ⟨hnone, hreach⟩ | ⟨r, params, hsome, hexists, hreach⟩
  · rw [hnone] at h
    refine ⟨fun body c => iff_of_false (hreach body c) ?_, fun hhead _ hother => ?_,
      fun _ hcode => ?_⟩
    · rintro ⟨r, params, hrun, -⟩
      rw [h] at hrun
      exact absurd (Except.ok.inj hrun) (by simp)
    · rw [h, if_neg]
      rintro (hm | hempty)
      · exact hhead hm
      · obtain ⟨m', body, c, hc⟩ := hother
        exact allowed_routes.mp hempty m' body c hc
    · rw [h, if_pos (hcode.imp_right allowed_routes.mpr)]
  · rw [hsome] at h
    have hsomewhere : ¬ ∀ body c, ¬ Reaches body asked url c := fun hnot => by
      obtain ⟨c, hc⟩ := hexists []
      exact hnot [] c hc
    refine ⟨fun body c => (hreach body c).trans ⟨fun hcall => ⟨r, params, h, hcall⟩, ?_⟩,
      fun _ hnot => absurd hnot hsomewhere, fun hnot => absurd hnot hsomewhere⟩
    rintro ⟨r', params', hrun, hcall⟩
    rw [h] at hrun
    obtain ⟨rfl, rfl, -⟩ := Handled.run.inj (Except.ok.inj hrun)
    exact hcall

theorem answers_routes {router : Router Route} (h : Router.validate routes = .ok router)
    {m : HTTPMethod} (hoptions : m ≠ .options) (url : Bytes) :
    Answers router m (if m = .head then .get else m) url := by
  refine answers_of_search ?_
  rw [handle_eq_answer h]
  by_cases hhead : m = .head
  · -- there is no rule for `HEAD`
    subst hhead
    rw [answer, show search (registered routes .head) url = none from rfl, Option.none_or,
      if_pos rfl]
    cases search (registered routes .get) url <;> rfl
  · rw [answer_of_ne hhead hoptions, if_neg hhead]
    cases search (registered routes m) url <;> simp [hhead]

/-- **The addresses that exist, and the answers to the others.** -/
theorem handle_routes : ∃ router, Router.validate routes = .ok router ∧
    ∀ m url, m ≠ .options → Answers router m (if m = .head then .get else m) url := by
  obtain ⟨router, hrouter⟩ := routes_valid
  exact ⟨router, hrouter, fun _ url hoptions => answers_routes hrouter hoptions url⟩

end

end JobScheduler
