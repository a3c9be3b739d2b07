import ShapeCompiler.Catalog.Programs
import ShapeCompiler.Proofs.Independence.Histories

/-!
The engine of the catalog.

Main statement: nothing has been asked of it but to declare its types and to decorate its programs
(`Catalog.engine_prepared`).
-/

namespace ShapeCompiler

namespace Engine

variable {e : Engine} {ds : List FunctionDef} {name : Ident} {f : Function}

theorem update_decorateAll (h : ∀ d ∈ ds, e.types.lookup d.name = none) :
    e.update (ds.forM Update.decorate) = (.ok ⟨⟩, e.withDecorated ds) := by
  induction ds generalizing e with
  | nil => rfl
  | cons d rest ih =>
    obtain ⟨hd, hrest⟩ := List.forall_mem_cons.1 h
    exact (update_bind_ok (update_register (.decorated d) hd)).trans (ih hrest)

theorem types_withDecorated (e : Engine) (ds : List FunctionDef) : (e.withDecorated ds).types = e.types := by
  induction ds generalizing e with
  | nil => rfl
  | cons d rest ih => exact ih (e.withFunction d.name (.decorated d))

/-- Only names of the new functions are registered anew. -/
theorem get?_withDecorated_of_notMem (h : name ∉ ds.map FunctionDef.name) :
    (e.withDecorated ds).functions.get? name = e.functions.get? name := by
  induction ds generalizing e with
  | nil => rfl
  | cons d rest ih =>
    rw [List.map_cons, List.mem_cons, not_or] at h
    refine (ih h.2).trans ?_
    unfold withFunction
    rw [Assoc.get?_insert, if_neg (Ne.symm h.1)]

theorem get?_withDecorated_of_mem {d : FunctionDef} (hnames : (ds.map FunctionDef.name).Nodup) (hd : d ∈ ds) :
    (e.withDecorated ds).functions.get? d.name = some (.decorated d) := by
  induction ds generalizing e with
  | nil => cases hd
  | cons d' rest ih =>
    rw [List.map_cons, List.nodup_cons] at hnames
    rcases List.mem_cons.1 hd with rfl | hd
    · exact (get?_withDecorated_of_notMem hnames.1).trans (Assoc.get?_insert_self _ _ _)
    · exact ih hnames.2 hd

end Engine

namespace Catalog

def programTypes : TypeTable :=
  match TypeTable.declare Engine.default.types (treeTypes ++ listTypes ++ pairTypes) with
  | .ok (_, t) => t
  | .error _ => {}

theorem programTypes_declared :
    TypeTable.declare Engine.default.types (treeTypes ++ listTypes ++ pairTypes) =
      .ok ([⟨1⟩, ⟨2⟩, ⟨3⟩, ⟨4⟩, ⟨5⟩, ⟨6⟩, ⟨7⟩], programTypes) := by with_unfolding_all rfl

/-- No program is called like a type. -/
theorem programs_free : ∀ d ∈ programs, programTypes.lookup d.name = none := by
  with_unfolding_all decide

theorem engine_eq : engine = ({ Engine.default with types := programTypes } : Engine).withDecorated programs := by
  have hdeclare : Engine.default.update (Update.declareTypes (treeTypes ++ listTypes ++ pairTypes)) =
      (.ok _, { Engine.default with types := programTypes }) :=
    Engine.update_declareTypes_eq_ok.2 ⟨_, programTypes_declared, rfl⟩
  unfold engine
  rw [Engine.update_bind_ok hdeclare, Engine.update_decorateAll programs_free]

theorem engine_types : engine.types = programTypes := by
  rw [engine_eq, Engine.types_withDecorated]

/-- The types are declared and the programs are decorated, and nothing else has been asked of the engine. -/
theorem engine_prepared : engine.Prepared := by
  have htypes : Engine.Prepared { Engine.default with types := programTypes } :=
    Engine.reached_default.declareTypes trivial programTypes_declared
  rw [engine_eq]
  exact htypes.withDecorated programs_free

theorem engine_decorated {d : FunctionDef} (hd : d ∈ programs) :
    engine.functions.get? d.name = some (.decorated d) := by
  rw [engine_eq]
  exact Engine.get?_withDecorated_of_mem (by with_unfolding_all decide) hd

theorem engine_pure : engine.functions.Pure := by
  rw [engine_eq]
  exact Functions.pure_empty.withDecorated programs

theorem engine_uniform : engine.Uniform := engine_prepared.uniform (by rw [engine_eq]; rfl)

end Catalog

end ShapeCompiler
