import Idl.Checker

/-! Reasoning about runs of the checker. `Ensures` describes every result that
a piece of work has from a state; work that runs out of levels or rounds has
none. The laws follow the construction of `CheckM`, so that a statement about a
function is proved along its text. -/
namespace Idl

/-- Every result of the work from this state is as described. -/
def Ensures {α : Type} (work : CheckM α) (c : Checker) (result : α → Checker → Prop) : Prop :=
  ∀ a after, work c = some (a, after) → result a after

namespace Ensures

/-- A description may be replaced by one that follows from it. -/
theorem weaken (ensured : Ensures work c first)
    (follows : ∀ a after, first a after → second a after) : Ensures work c second :=
  fun a after ran => follows a after (ensured a after ran)

theorem both (left : Ensures work c first) (right : Ensures work c second) :
    Ensures work c fun a after => first a after ∧ second a after :=
  fun a after ran => ⟨left a after ran, right a after ran⟩

theorem pure_iff : Ensures (pure a) c result ↔ result a c := by
  constructor
  · intro ensured
    exact ensured a c rfl
  · intro held b after ran
    cases ran
    exact held

theorem bind_iff :
    Ensures (first >>= next) c result ↔
      Ensures first c fun a middle => Ensures (next a) middle result := by
  constructor
  · intro ensured a middle ran b after rest
    refine ensured b after ?_
    show (first c).bind (fun p => next p.1 p.2) = _
    rw [ran]
    exact rest
  · intro ensured b after ran
    replace ran : (first c).bind (fun p => next p.1 p.2) = some (b, after) := ran
    obtain ⟨⟨a, middle⟩, begun, rest⟩ := Option.bind_eq_some_iff.mp ran
    exact ensured a middle begun b after rest

/-- The rule for two pieces of work in a row. -/
theorem bind (begun : Ensures first c between)
    (rest : ∀ a middle, between a middle → Ensures (next a) middle result) :
    Ensures (first >>= next) c result :=
  bind_iff.mpr (begun.weaken rest)

theorem map_iff :
    Ensures (f <$> work) c result ↔ Ensures work c fun a after => result (f a) after := by
  rw [map_eq_pure_bind, bind_iff]
  simp only [pure_iff]

theorem get_iff : Ensures (get : CheckM Checker) c result ↔ result c c := by
  constructor
  · intro ensured
    exact ensured c c rfl
  · intro held d after ran
    cases ran
    exact held

theorem set_iff : Ensures (set next : CheckM PUnit) c result ↔ result ⟨⟩ next := by
  constructor
  · intro ensured
    exact ensured ⟨⟩ next rfl
  · intro held d after ran
    cases ran
    exact held

theorem modify_iff : Ensures (modify change : CheckM PUnit) c result ↔ result ⟨⟩ (change c) := by
  constructor
  · intro ensured
    exact ensured ⟨⟩ (change c) rfl
  · intro held d after ran
    cases ran
    exact held

theorem modifyGet_iff :
    Ensures (modifyGet change : CheckM α) c result ↔ result (change c).1 (change c).2 := by
  constructor
  · intro ensured
    exact ensured (change c).1 (change c).2 rfl
  · intro held a after ran
    obtain ⟨rfl, rfl⟩ := Prod.mk.inj (Option.some.inj ran)
    exact held

/-- Work of which nothing has to be known. -/
theorem anything : Ensures work c fun _ _ => True :=
  fun _ _ _ => trivial

/-- Work that runs out has no result at all. -/
theorem exhausted : Ensures CheckM.exhausted c result := by
  intro a after ran
  cases ran

theorem ite [Decidable condition] (whenTrue : condition → Ensures yes c result)
    (whenFalse : ¬ condition → Ensures no c result) :
    Ensures (if condition then yes else no) c result := by
  split
  · exact whenTrue ‹_›
  · exact whenFalse ‹_›

end Ensures

end Idl
