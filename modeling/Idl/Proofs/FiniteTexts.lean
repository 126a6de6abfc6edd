import Idl.Program
import Idl.Proofs.WholeRuns

/-! The text of a type is finite, although models may contain themselves and each
other. A text goes into the arguments of an instance, the options of a union and the
properties of a model without a name, and no further. All of these had their places
in the store before the type had its own: the place of a key is handed out when its
arguments are there, and a union or a model without a name is stored when its parts
are there. Work that is given up and done again keeps its place. -/
namespace Idl

/-- The arguments of a key are older than its place, and what the text of a type goes into is older
than the type. -/
structure Layered (c : Checker) : Prop where
  placed : ∀ key id, c.Placed key id → ∀ arg ∈ key.args, arg.index < id.index
  stored : ∀ id type, c.types.get? id = some type → ∀ part ∈ type.textParts, part.index < id.index

theorem Layered.step (consistent : Consistent env c) (step : Step env c after)
    (layered : Layered c) : Layered after where
  placed := by
    intro key id placed arg mem
    cases Consistent.places step placed with
    | kept placed => exact layered.placed key id placed arg mem
    | handed fresh proper =>
      rw [fresh]
      exact proper.held arg mem
  stored := by
    intro id type found part mem
    cases consistent.stores step found with
    | kept found => exact layered.stored id type found part mem
    | model fresh sound =>
      obtain ⟨property, given, rfl⟩ := List.mem_map.mp (show part ∈ _ from mem)
      rw [fresh]
      exact (sound property given).1
    | union fresh held =>
      rw [fresh]
      exact held part mem
    | param => cases mem
    | @declared frame rest _ stacked place completes =>
      -- the key got its place before the work on it, and keeps it if the work is given up
      have placed := consistent.top_placed stacked
      rw [← place]
      exact layered.placed frame.key frame.id placed part (completes.parts part mem)

theorem Ended.layered (ended : Ended env c) : Layered c := by
  apply ended.keeps Layered _ fun _ _ => Layered.step
  constructor
  · simp [Checker.Placed]
  · intro id type found
    rcases TypeStore.get?_empty found with ⟨kind, rfl⟩ | rfl <;> simp [CheckedType.textParts]

namespace Program
variable {program : Program} {inner : TypeId → Option String} {id : TypeId}

/-! ### One level of a text -/

private theorem mapM_congr {g : α → Option String} {list : List α} (same : ∀ a ∈ list, f a = g a) :
    list.mapM f = list.mapM g := by
  induction list with
  | nil => rfl
  | cons first rest ih =>
    rw [List.mapM_cons, List.mapM_cons, same first (by simp),
      ih fun a mem => same a (List.mem_cons_of_mem _ mem)]

private theorem mapM_some (f : α → String) (list : List α) :
    (list.mapM fun a => some (f a)) = some (list.map f) :=
  List.mapM_pure

private theorem arguments_eq (template : Option TemplateInstance) :
    (template.map (·.arguments)).getD [] = template.toList.flatMap (·.arguments) := by
  cases template <;> simp

/-- Of the texts of other types only those of the parts count. -/
theorem typeNameFrom_congr
    (same : ∀ type, program.types.get? id = some type → ∀ part ∈ type.textParts,
      inner part = other part) :
    program.typeNameFrom inner id = program.typeNameFrom other id := by
  unfold typeNameFrom
  cases found : program.types.get? id with
  | none => rfl
  | some type =>
    have parts := same type found
    cases type with
    | model model =>
      obtain ⟨name, symbol, properties, base, source, template, decorators⟩ := model
      cases symbol with
      | none =>
        have texts : (properties.mapM fun p => (inner p.type).map (propertyText p)) =
            properties.mapM fun p => (other p.type).map (propertyText p) := by
          apply mapM_congr
          intro property mem
          have within : property.type ∈ properties.map (·.type) := List.mem_map_of_mem mem
          rw [parts _ (List.mem_append_right _ within)]
        simp only [texts]
      | some symbol =>
        have texts := mapM_congr fun part mem => parts part (List.mem_append_left _ mem)
        simp only [arguments_eq, texts]
    | operation operation =>
      have texts : (operation.template.toList.flatMap (·.arguments)).mapM inner =
          (operation.template.toList.flatMap (·.arguments)).mapM other := mapM_congr parts
      simp only [arguments_eq, texts]
    | union options =>
      have texts : options.mapM inner = options.mapM other := mapM_congr parts
      simp only [texts]
    | intrinsic | interface | templateParameter | error => rfl

/-- If the parts have texts, the type has one. -/
theorem typeNameFrom_isSome (program : Program) (texts : TypeId → String) (id : TypeId) :
    (program.typeNameFrom (fun part => some (texts part)) id).isSome := by
  unfold typeNameFrom
  simp only [mapM_some, Option.map_some]
  split
  · rfl
  · rfl
  · split <;> rfl
  · split <;> rfl
  · split <;> rfl
  · rfl
  · rfl
  · rfl

/-! ### Whole texts -/

/-- What the text of a type goes into is older than the type. -/
def Layered (program : Program) : Prop :=
  ∀ id type, program.types.get? id = some type → ∀ part ∈ type.textParts, part.index < id.index

/-- A type has a text, and more levels than its number do not change it. -/
theorem Layered.exists_text (layered : program.Layered) (id : TypeId) :
    ∃ text, ∀ levels, id.index < levels → program.typeNameWithin levels id = some text := by
  -- strong induction on the number of the type; the texts of older types are there
  induction bound : id.index using Nat.strong_induction_on generalizing id with
  | _ number ih =>
    subst bound
    have older (part : TypeId) : ∃ text, part.index < id.index →
        ∀ levels, part.index < levels → program.typeNameWithin levels part = some text := by
      by_cases before : part.index < id.index
      · obtain ⟨text, stable⟩ := ih part.index before part rfl
        exact ⟨text, fun _ => stable⟩
      · exact ⟨"", fun before' => absurd before' before⟩
    choose texts given using older
    have some := program.typeNameFrom_isSome texts id
    obtain ⟨text, made⟩ := Option.isSome_iff_exists.mp some
    refine ⟨text, fun levels enough => ?_⟩
    obtain ⟨levels, rfl⟩ : ∃ fewer, levels = fewer + 1 := ⟨levels - 1, by omega⟩
    rw [typeNameWithin, ← made]
    apply typeNameFrom_congr
    intro type found part mem
    have before := layered id type found part mem
    exact given part before levels (by omega)

theorem Layered.typeNameWithin_eq (layered : program.Layered) (id : TypeId)
    (enough : program.types.size < levels) :
    program.typeNameWithin levels id = program.typeName? id := by
  obtain ⟨levels, rfl⟩ : ∃ fewer, levels = fewer + 1 := ⟨levels - 1, by omega⟩
  unfold typeName?
  cases found : program.types.get? id with
  | none => simp [typeNameWithin, typeNameFrom, found]
  | some type =>
    obtain ⟨text, stable⟩ := layered.exists_text id
    have inside := TypeStore.lt_size_of_get? found
    rw [stable _ (by omega), stable _ (by omega)]

theorem Layered.typeName?_isSome (layered : program.Layered) (id : TypeId) :
    (program.typeName? id).isSome := by
  obtain ⟨text, stable⟩ := layered.exists_text id
  have enough : program.types.size < program.types.size + 1 + id.index := by omega
  rw [← layered.typeNameWithin_eq id enough, stable _ (by omega)]
  rfl

/-- The levels do not matter: the text of a type is made from the texts of its parts. -/
theorem Layered.typeName?_eq (layered : program.Layered) (id : TypeId) :
    program.typeName? id = program.typeNameFrom program.typeName? id := by
  have more := layered.typeNameWithin_eq id (Nat.lt_succ_of_lt (Nat.lt_succ_self program.types.size))
  rw [← more, typeNameWithin]
  rfl

end Program

/-- The types of a program are those that checking its files left. -/
theorem types_of_compile
    (compiled : compile library host options entry rounds = some ⟨logs, .ok program⟩) :
    ∃ scripts final, check (Environment.ofScripts library options scripts) rounds = some final ∧
      program.types = final.types := by
  unfold compile at compiled
  obtain ⟨⟨loading, error⟩, loaded, made⟩ := Option.bind_eq_some_iff.mp compiled
  cases error with
  | some error => cases made
  | none =>
    obtain ⟨final, checked, given⟩ := Option.bind_eq_some_iff.mp made
    cases given
    exact ⟨_, final, checked, rfl⟩

/-- In a program that was compiled, the arguments of an instance, the options of a union and the
types of the properties of a model without a name are older than the type. So every type has a text,
which is made from the texts of these, however the types contain each other. -/
theorem compile_gives_finite_texts (library : Library) (host : Host) (options : Options)
    (entry : String) (rounds : Nat) (logs : List LogLine) (program : Program)
    (compiled : compile library host options entry rounds = some ⟨logs, .ok program⟩) :
    program.Layered ∧ ∀ id, (program.typeName? id).isSome ∧
      program.typeName? id = program.typeNameFrom program.typeName? id := by
  obtain ⟨scripts, final, checked, types⟩ := types_of_compile compiled
  have ended := check_ended (Environment.ofScripts_bound library options scripts) checked
  have layered : program.Layered := by
    unfold Program.Layered
    rw [types]
    exact ended.layered.stored
  exact ⟨layered, fun id => ⟨layered.typeName?_isSome id, layered.typeName?_eq id⟩⟩

/-- Two models that contain each other, one of which takes over the properties of the other and so is
put off. They have instances of a recursive template, a union and models written in place. -/
private def mutualText : String :=
  "model Node \x7b leaf: Leaf; kids: Page<Node | Leaf>; " ++
    "extra: \x7b up: Node; down?: \x7b x: Leaf \x7d \x7d \x7d " ++
    "model Leaf \x7b ...Node; page: Page<\x7b of: Leaf \x7d> \x7d " ++
    "model Page<T> \x7b items: T; next: Page<T> \x7d " ++
    "op find<T>(from: Page<T>): \x7b found: T \x7d; op seek: find<Leaf>;"

private def mutualHost : Host := Host.write {} "/main.cadl" mutualText

/-- Texts that go into an instance, a union and models without names. -/
private def hasMutualTexts (compilation : Compilation) : Bool :=
  match compilation.result with
  | .ok program => [6, 8, 10, 14, 23].map (fun index => program.typeName? ⟨index⟩) =
      ["Page<\x7b of: Leaf \x7d>", "Page<Node | Leaf>", "\x7b up: Node, down?: \x7b x: Leaf \x7d \x7d",
        "find<T>", "\x7b from: Page<Leaf> \x7d"].map some
  | .error _ => false

theorem compile_gives_finite_texts_mutual :
    ∃ logs program, compile {} mutualHost { nostdlib := true } "/main.cadl" 8 =
        some ⟨logs, .ok program⟩ ∧ hasMutualTexts ⟨logs, .ok program⟩ ∧ program.Layered ∧
      ∀ id, (program.typeName? id).isSome := by
  have returns : (compile {} mutualHost { nostdlib := true } "/main.cadl" 8).any hasMutualTexts =
      true := by
    decide +kernel
  obtain ⟨⟨logs, result⟩, compiled, texts⟩ := (Option.any_eq_true _ _).mp returns
  cases result with
  | error error => cases texts
  | ok program =>
    have finite := compile_gives_finite_texts _ _ _ _ _ logs program compiled
    exact ⟨logs, program, compiled, texts, finite.1, fun id => (finite.2 id).1⟩

end Idl
