/-! # Code that binds modules

The statements that stand in the place of imports and exports where there are no ES modules, as
trees: how they are written, and what they do.  A run is symbolic.  It yields which modules are
loaded, which names are bound to which parts of them, and what is assigned to `exports`, each in
order.  A name is read as what it was bound to last, so that a name that is bound twice shows.
-/

namespace TypeScriptEngine.CommonJs

/-! ## Trees -/

/-- What is bound or exported. -/
inductive Expr where
  /-- A call that loads the module of a string literal. -/
  | require (literal : String)
  | name (name : String)
  | member (object : Expr) (property : String)

/-- A statement. -/
inductive Code where
  | evaluate (e : Expr)
  /-- Binds names to values, one after the other. -/
  | declare (bindings : List (String × Expr))
  /-- Takes properties off an object, each with the name that it is bound to. -/
  | takeApart (names : List (String × String)) (e : Expr)
  /-- Assigns to a property of `exports`. -/
  | assign (property : String) (e : Expr)

namespace Expr

/-- How an expression is written. -/
def text : Expr → String
  | require literal => "require(" ++ literal ++ ")"
  | name n => n
  | member object property => object.text ++ "." ++ property

/-- The names and properties in an expression. -/
def mentioned : Expr → List String
  | require _ => []
  | name n => [n]
  | member object property => object.mentioned ++ [property]

end Expr

namespace Code

/-- An entry of a pattern that takes an object apart. -/
def field (n : String × String) : String := if n.1 = n.2 then n.1 else n.1 ++ ": " ++ n.2

/-- How a statement is written, with the word that declares names. -/
def text (declarator : String) : Code → String
  | evaluate e => e.text ++ ";"
  | declare bindings =>
    declarator ++ " " ++ ", ".intercalate (bindings.map fun b => b.1 ++ " = " ++ b.2.text) ++ ";"
  | takeApart names e =>
    declarator ++ " \x7b " ++ ", ".intercalate (names.map field) ++ " \x7d = " ++ e.text ++ ";"
  | assign property e => "exports." ++ property ++ " = " ++ e.text ++ ";"

/-- The names and properties in a statement. -/
def mentioned : Code → List String
  | evaluate e => e.mentioned
  | declare bindings => bindings.flatMap fun b => b.1 :: b.2.mentioned
  | takeApart names e => names.flatMap (fun n => [n.1, n.2]) ++ e.mentioned
  | assign property e => property :: e.mentioned

/-- Takes properties off an object, in a pattern or one by one. -/
def takeFrom (destructuring : Bool) (names : List (String × String)) (object : Expr) : Code :=
  if destructuring then .takeApart names object
  else .declare (names.map fun n => (n.2, .member object n.1))

/-- How statements are written. -/
def textOf (declarator : String) (code : List Code) : String :=
  " ".intercalate (code.map (text declarator))

end Code

/-! ## Runs -/

/-- What an expression stands for. -/
inductive Value where
  /-- The object of the module of a string literal. -/
  | module (literal : String)
  /-- What a name stands for that the statements do not bind. -/
  | outer (name : String)
  | property (object : Value) (name : String)
deriving DecidableEq

/-- What statements have done. -/
structure Effects where
  /-- The modules that were loaded. -/
  required : List String
  /-- The names that were bound. -/
  bound : List (String × Value)
  /-- The properties of `exports` that were assigned. -/
  exported : List (String × Value)

namespace Effects

/-- Nothing was done. -/
def initial : Effects := ⟨[], [], []⟩

/-- What a name stands for: what it was bound to last. -/
def read (s : Effects) (n : String) : Value :=
  (s.bound.findRev? (·.1 == n)).elim (.outer n) Prod.snd

def bind (s : Effects) (n : String) (v : Value) : Effects := { s with bound := s.bound ++ [(n, v)] }

end Effects

/-- What is evaluated, and what that does. -/
def Expr.eval (s : Effects) : Expr → Value × Effects
  | require literal => (.module literal, { s with required := s.required ++ [literal] })
  | name n => (s.read n, s)
  | member object property =>
    let (v, s) := object.eval s
    (.property v property, s)

/-- What a statement does. -/
def Code.step (s : Effects) : Code → Effects
  | evaluate e => (e.eval s).2
  | declare bindings =>
    bindings.foldl (fun s b => let (v, s) := b.2.eval s; s.bind b.1 v) s
  | takeApart names e =>
    let (v, s) := e.eval s
    names.foldl (fun s n => s.bind n.2 (.property v n.1)) s
  | assign property e =>
    let (v, s) := e.eval s
    { s with exported := s.exported ++ [(property, v)] }

/-- What statements do. -/
def Code.run (code : List Code) : Effects := code.foldl step .initial

/-! ## Steps -/

namespace Effects

variable {s : Effects} {n m : String} {v : Value}

@[simp] theorem read_bind_of_ne (h : n ≠ m) : (s.bind n v).read m = s.read m := by
  simp [read, bind, h]

/-- What is done once the properties of a value are bound. -/
def takingFrom (s : Effects) (names : List (String × String)) (v : Value) : Effects :=
  { s with bound := s.bound ++ names.map fun n => (n.2, .property v n.1) }

theorem takingFrom_nil (s : Effects) (v : Value) : s.takingFrom [] v = s := by
  simp [takingFrom]

theorem takingFrom_cons (s : Effects) (n : String × String) (names : List (String × String))
    (v : Value) : s.takingFrom (n :: names) v = (s.bind n.2 (.property v n.1)).takingFrom names v := by
  simp [takingFrom, bind]

end Effects

namespace Code

variable {s : Effects} {names : List (String × String)} {x : String} {v : Value} {e : Expr}

theorem step_takeApart {s' : Effects} (h : e.eval s = (v, s')) :
    (takeApart names e).step s = s'.takingFrom names v := by
  simp only [step, h]
  clear h
  induction names generalizing s' with
  | nil => exact (s'.takingFrom_nil v).symm
  | cons n names ih => rw [List.foldl_cons, ih, Effects.takingFrom_cons]

/-- **Properties are taken off what a name stands for,** if the name is not bound on the way. -/
theorem step_takeFrom (destructuring : Bool) (hread : s.read x = v) (hx : x ∉ names.map Prod.snd) :
    (takeFrom destructuring names (.name x)).step s = s.takingFrom names v := by
  cases destructuring with
  | true => exact step_takeApart (congrArg (·, s) hread)
  | false =>
    simp only [takeFrom, step, List.foldl_map, Expr.eval, Bool.false_eq_true, if_false]
    induction names generalizing s with
    | nil => exact (s.takingFrom_nil v).symm
    | cons n names ih =>
      rw [List.map_cons, List.mem_cons, not_or] at hx
      have hnext : (s.bind n.2 (.property v n.1)).read x = v := by
        rw [Effects.read_bind_of_ne (Ne.symm hx.1), hread]
      rw [List.foldl_cons, hread, ih hnext hx.2, Effects.takingFrom_cons]

/-- Assignments to `exports` bind nothing, so that each value is that of its name before them. -/
theorem foldl_assign (s : Effects) (names : List (String × String)) {value : String → Expr}
    {f : String → Value}
    (hvalue : ∀ (s' : Effects) n, s'.bound = s.bound → (value n).eval s' = (f n, s')) :
    (names.map fun n => assign n.2 (value n.1)).foldl step s =
      { s with exported := s.exported ++ names.map fun n => (n.2, f n.1) } := by
  induction names generalizing s with
  | nil => simp
  | cons n names ih =>
    rw [List.map_cons, List.foldl_cons]
    have hstep : (assign n.2 (value n.1)).step s =
        { s with exported := s.exported ++ [(n.2, f n.1)] } := by
      simp only [step, hvalue s n.1 rfl]
    rw [hstep, ih { s with exported := s.exported ++ [(n.2, f n.1)] } hvalue]
    simp

end Code

/-! ## Imports -/

/-- What the statements for an import bind: the default export, the module object, and values. -/
structure Imported where
  default? : Option String
  whole? : Option String
  /-- The values, each with the name that it is bound to. -/
  values : List (String × String)

namespace Imported

variable {imported : Imported} {destructuring : Bool} {literal temporary : String}

/-- The names that are bound, each with what it is bound to. -/
def bindings (imported : Imported) (module : Value) : List (String × Value) :=
  (imported.default?.map fun n => (n, Value.property module "default")).toList ++
    (imported.whole?.map fun n => (n, module)).toList ++
    imported.values.map fun n => (n.2, .property module n.1)

/-- The names of what is imported, and those that it is bound to. -/
def names (imported : Imported) : List String :=
  imported.default?.toList ++ imported.whole?.toList ++ imported.values.flatMap fun n => [n.1, n.2]

/-- Binds the parts of a module object one after the other. -/
def parts (imported : Imported) (destructuring : Bool) (object : Expr) : List Code :=
  (imported.default?.map fun n => Code.declare [(n, .member object "default")]).toList ++
    (imported.whole?.map fun n => Code.declare [(n, object)]).toList ++
    if imported.values.isEmpty then [] else [.takeFrom destructuring imported.values object]

/-- Whether a single statement can bind what is imported, straight from the call that loads the
module. -/
def isDirect (imported : Imported) (destructuring : Bool) : Bool :=
  match imported.default?, imported.whole?, imported.values with
  | _, none, [] | none, _, [] => true
  | none, none, _ => destructuring
  | _, _, _ => false

/-- The statements for an import, with a name for the module object. -/
def code (imported : Imported) (destructuring : Bool) (literal temporary : String) : List Code :=
  if imported.isDirect destructuring then
    if imported.names.isEmpty then [.evaluate (.require literal)]
    else imported.parts destructuring (.require literal)
  else .declare [(temporary, .require literal)] :: imported.parts destructuring (.name temporary)

/-- What a name stands for is taken apart, if the name is not bound on the way. -/
theorem foldl_parts {module : Value} (s : Effects) (hread : s.read temporary = module)
    (hfresh : temporary ∉ (imported.bindings module).map Prod.fst) :
    (imported.parts destructuring (.name temporary)).foldl Code.step s =
      { s with bound := s.bound ++ imported.bindings module } := by
  obtain ⟨default?, whole?, values⟩ := imported
  simp only [bindings, List.map_append, List.mem_append, not_or, List.map_map,
    Function.comp_def] at hfresh
  obtain ⟨⟨hdefault, hwhole⟩, hvalues⟩ := hfresh
  -- what the name stands for does not change from one statement to the next
  let s₁ : Effects := default?.elim s fun n => s.bind n (.property module "default")
  let s₂ : Effects := whole?.elim s₁ fun n => s₁.bind n module
  have h₁ : s₁.read temporary = module := by
    cases default? with
    | none => exact hread
    | some n =>
      have hne : n ≠ temporary := fun h => by simp [h] at hdefault
      exact (Effects.read_bind_of_ne hne).trans hread
  have h₂ : s₂.read temporary = module := by
    cases whole? with
    | none => exact h₁
    | some n =>
      have hne : n ≠ temporary := fun h => by simp [h] at hwhole
      exact (Effects.read_bind_of_ne hne).trans h₁
  have hrun₁ : (default?.map fun n =>
      Code.declare [(n, .member (.name temporary) "default")]).toList.foldl Code.step s = s₁ := by
    cases default? with
    | none => rfl
    | some n => simp [Code.step, Expr.eval, hread, s₁]
  have hrun₂ : (whole?.map fun n =>
      Code.declare [(n, .name temporary)]).toList.foldl Code.step s₁ = s₂ := by
    cases whole? with
    | none => rfl
    | some n => simp [Code.step, Expr.eval, h₁, s₂]
  have hrun₃ : (if values.isEmpty then []
      else [Code.takeFrom destructuring values (.name temporary)]).foldl Code.step s₂ =
        s₂.takingFrom values module := by
    cases values with
    | nil => exact (s₂.takingFrom_nil _).symm
    | cons n values => exact Code.step_takeFrom destructuring h₂ hvalues
  rw [parts, List.foldl_append, List.foldl_append, hrun₁, hrun₂, hrun₃]
  cases default? <;> cases whole? <;> simp [s₁, s₂, Effects.takingFrom, Effects.bind, bindings]

/-- **The statements for an import load the module once and bind what is imported,** besides the
name for the module object, if this is not one of the names that are bound. -/
theorem run_code (hfresh : imported.isDirect destructuring = false →
      temporary ∉ (imported.bindings (.module literal)).map Prod.fst) :
    Code.run (imported.code destructuring literal temporary) =
      ⟨[literal], (if imported.isDirect destructuring then [] else [(temporary, .module literal)]) ++
        imported.bindings (.module literal), []⟩ := by
  cases hdirect : imported.isDirect destructuring with
  | false =>
    let loaded : Effects := ⟨[literal], [(temporary, .module literal)], []⟩
    rw [code, hdirect]
    exact foldl_parts loaded (by simp [loaded, Effects.read]) (hfresh hdirect)
  | true =>
    obtain ⟨default?, whole?, values⟩ := imported
    rw [code, hdirect]
    rcases default? with _ | n <;> rcases whole? with _ | m <;> rcases values with _ | ⟨v, vs⟩
    case none.none.cons =>
      obtain rfl : destructuring = true := hdirect
      let loaded : Effects := ⟨[literal], [], []⟩
      exact @Code.step_takeApart .initial (v :: vs) _ (.require literal) loaded rfl
    all_goals first | rfl | contradiction

theorem mentioned_takeFrom (values : List (String × String)) (object : Expr) (n : String) :
    n ∈ (Code.takeFrom destructuring values object).mentioned →
      n ∈ values.flatMap (fun v => [v.1, v.2]) ∨ n ∈ object.mentioned := by
  cases destructuring with
  | true => exact List.mem_append.mp
  | false =>
    intro hn
    simp only [Code.takeFrom, Code.mentioned, Expr.mentioned, List.flatMap_map, List.mem_flatMap,
      List.mem_cons, List.mem_append, List.not_mem_nil, or_false, Bool.false_eq_true,
      if_false] at hn ⊢
    obtain ⟨v, hv, rfl | hn | rfl⟩ := hn
    · exact .inl ⟨v, hv, .inr rfl⟩
    · exact .inr hn
    · exact .inl ⟨v, hv, .inl rfl⟩

theorem mentioned_parts (object : Expr) (n : String)
    (hn : n ∈ (imported.parts destructuring object).flatMap Code.mentioned) :
    n ∈ imported.names ∨ n = "default" ∨ n ∈ object.mentioned := by
  obtain ⟨default?, whole?, values⟩ := imported
  simp only [parts, List.flatMap_append, List.mem_append] at hn
  simp only [names, List.mem_append]
  rcases hn with (hn | hn) | hn
  · cases default? with
    | none => contradiction
    | some m =>
      simp only [Option.map_some, Option.toList_some, List.flatMap_cons, List.flatMap_nil,
        List.append_nil, Code.mentioned, Expr.mentioned, List.mem_cons, List.mem_append,
        List.not_mem_nil, or_false] at hn ⊢
      rcases hn with hn | hn | hn
      · exact .inl (.inl (.inl hn))
      · exact .inr (.inr hn)
      · exact .inr (.inl hn)
  · cases whole? with
    | none => contradiction
    | some m =>
      simp only [Option.map_some, Option.toList_some, List.flatMap_cons, List.flatMap_nil,
        List.append_nil, Code.mentioned, List.mem_cons, List.not_mem_nil, or_false] at hn ⊢
      exact hn.imp (fun hn => .inl (.inr hn)) .inr
  · split at hn
    · contradiction
    · rw [List.flatMap_cons, List.flatMap_nil, List.append_nil] at hn
      exact (mentioned_takeFrom values object n hn).imp .inr .inr

/-- The statements for an import mention nothing but what is imported. -/
theorem mentioned_code (n : String)
    (hn : n ∈ (imported.code destructuring literal temporary).flatMap Code.mentioned) :
    n ∈ imported.names ∨ n = "default" ∨
      n ∈ if imported.isDirect destructuring then [] else [temporary] := by
  unfold code at hn
  split at hn
  · rename_i hdirect
    rw [if_pos hdirect]
    split at hn
    · contradiction
    · exact mentioned_parts _ n hn
  · rename_i hdirect
    rw [if_neg hdirect]
    rw [List.flatMap_cons, List.mem_append] at hn
    rcases hn with hn | hn
    · exact .inr (.inr hn)
    · exact mentioned_parts _ n hn

end Imported

/-! ## Exports -/

/-- The statements for an export of values, each with the name that it is given, with a name for the
object of the module that they belong to, if they do not belong to the program itself. -/
def exportCode (values : List (String × String)) (literal? : Option String) (temporary : String) :
    List Code :=
  match literal?, values with
  | none, values => values.map fun n => .assign n.2 (.name n.1)
  | some literal, [] => [.evaluate (.require literal)]
  | some literal, values => .declare [(temporary, .require literal)] ::
      values.map fun n => .assign n.2 (.member (.name temporary) n.1)

/-- Whether the statements for an export need no name for a module object. -/
def isDirectExport (values : List (String × String)) (literal? : Option String) : Bool :=
  literal?.isNone || values.isEmpty

/-- The properties that an export assigns, each with its value. -/
def exportedValues (values : List (String × String)) (literal? : Option String) :
    List (String × Value) :=
  values.map fun n => (n.2, literal?.elim (.outer n.1) fun l => .property (.module l) n.1)

section

variable {values : List (String × String)} {literal? : Option String} {temporary : String}

/-- **The statements for an export assign its values,** and load their module once. -/
theorem run_exportCode : Code.run (exportCode values literal? temporary) =
    ⟨literal?.toList,
      if isDirectExport values literal? then []
      else literal?.toList.map fun literal => (temporary, .module literal),
      exportedValues values literal?⟩ := by
  cases literal? with
  | none =>
    refine Code.foldl_assign .initial values fun s n hs => ?_
    simp [Expr.eval, Effects.read, hs, Effects.initial]
  | some literal =>
    cases values with
    | nil => rfl
    | cons v values =>
      let loaded : Effects := ⟨[literal], [(temporary, .module literal)], []⟩
      refine Code.foldl_assign loaded (v :: values) fun s n hs => ?_
      simp [Expr.eval, Effects.read, hs, loaded]

/-- The statements for an export mention nothing but the values. -/
theorem mentioned_exportCode (n : String)
    (hn : n ∈ (exportCode values literal? temporary).flatMap Code.mentioned) :
    n ∈ values.flatMap (fun v => [v.1, v.2]) ∨
      n ∈ if isDirectExport values literal? then [] else [temporary] := by
  have hvalues : ∀ value : String → Expr,
      n ∈ (values.map fun v => Code.assign v.2 (value v.1)).flatMap Code.mentioned →
        n ∈ values.flatMap (fun v => [v.1, v.2]) ∨ ∃ v ∈ values, n ∈ (value v.1).mentioned := by
    intro value hn
    simp only [List.flatMap_map, Code.mentioned, List.mem_flatMap, List.mem_cons,
      List.not_mem_nil, or_false] at hn ⊢
    obtain ⟨v, hv, rfl | hn⟩ := hn
    · exact .inl ⟨v, hv, .inr rfl⟩
    · exact .inr ⟨v, hv, hn⟩
  cases literal? with
  | none =>
    refine .inl ((hvalues .name hn).elim id fun ⟨v, hv, hn⟩ => List.mem_flatMap.mpr ⟨v, hv, ?_⟩)
    exact List.mem_singleton.mp hn ▸ List.mem_cons_self ..
  | some literal =>
    cases values with
    | nil => contradiction
    | cons v values =>
      rw [exportCode, List.flatMap_cons, List.mem_append] at hn
      · rcases hn with hn | hn
        · exact .inr hn
        · rcases hvalues (fun n => .member (.name temporary) n) hn with hn | ⟨w, hw, hn⟩
          · exact .inl hn
          · rcases List.mem_cons.mp hn with hn | hn
            · exact .inr (hn ▸ List.mem_cons_self ..)
            · refine .inl (List.mem_flatMap.mpr ⟨w, hw, ?_⟩)
              exact List.mem_singleton.mp hn ▸ List.mem_cons_self ..
      · exact fun h => by contradiction

end

end TypeScriptEngine.CommonJs
