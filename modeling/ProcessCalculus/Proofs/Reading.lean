import ProcessCalculus.Proofs.FirstOfEach
import ProcessCalculus.Proofs.Soundness
import ProcessCalculus.Reading

/-!
Reading accepts the texts whose tokens have a derivation and answers the program that its tree
declares: the first definition of each name, with the first of equal formal parameters.
-/
namespace ProcessCalculus

theorem Function.parameters_addParameters (f : Function) (ps : List Parameter) :
    f.addParameters ps = { f with parameters := ps.foldl (fun acc p =>
      if p.formal ∈ acc.map Parameter.formal then acc else acc ++ [p]) f.parameters } := by
  induction ps generalizing f with
  | nil => rfl
  | cons p ps ih =>
    rw [addParameters, List.foldl_cons, ← addParameters, ih, List.foldl_cons, addParameter,
      Parameter.formals]
    split <;> rfl

namespace Program

/-- What definitions declare: the first of each name, with the first of equal formals. -/
def declared (ds : List Definition) : Program :=
  ⟨(ds.eraseDupsBy fun d e => d.name == e.name).map fun d =>
    { name := d.name
      parameters := d.formals.eraseDups.map Parameter.shared
      body := d.body
      communicates := Block.communicates d.body
      saved := [] }⟩

theorem function_eq (d : Definition) : d.function =
    { name := d.name
      parameters := d.formals.eraseDups.map Parameter.shared
      body := d.body
      communicates := Block.communicates d.body
      saved := [] } := by
  have parameters : (d.formals.map Parameter.shared).foldl (fun acc p =>
      if p.formal ∈ acc.map Parameter.formal then acc else acc ++ [p]) [] =
        d.formals.eraseDups.map Parameter.shared := by
    rw [foldl_first_nil Parameter.formal]
    exact eraseDupsBy_map Parameter.shared (fun _ _ => rfl) d.formals
  rw [Definition.function, Function.ofBody, Function.parameters_addParameters, Function.empty,
    parameters]
  rfl

theorem foldl_add (p : Program) (fs : List Function) : fs.foldl add p =
    ⟨fs.foldl (fun acc f => if f.name ∈ acc.map Function.name then acc else acc ++ [f])
      p.functions⟩ := by
  induction fs generalizing p with
  | nil => rfl
  | cons f fs ih =>
    rw [List.foldl_cons, ih, List.foldl_cons]
    by_cases taken : f.name ∈ p.functions.map Function.name
    · rw [add_of_mem taken, if_pos taken]
    · rw [add_of_not_mem taken, if_neg taken]

theorem mem_names_foldl_add {p : Program} {fs : List Function} {name : String} :
    name ∈ (fs.foldl add p).names ↔ name ∈ p.names ∨ name ∈ fs.map Function.name := by
  induction fs generalizing p with
  | nil => simp
  | cons f fs ih =>
    have first : name ∈ (p.add f).names ↔ name ∈ p.names ∨ name = f.name := by
      rw [names_add]
      split
      · next taken => exact ⟨.inl, fun either => either.elim id fun same => same ▸ taken⟩
      · rw [List.mem_append, List.mem_singleton]
    rw [List.foldl_cons, ih, first, List.map_cons, List.mem_cons, or_assoc]

theorem ofDefinitions_eq (ds : List Definition) : ofDefinitions ds = declared ds := by
  have named : ∀ d e : Definition, (d.function.name == e.function.name) = (d.name == e.name) := by
    intro d e
    rw [function_eq, function_eq]
  rw [ofDefinitions, ofFunctions, foldl_add, empty, foldl_first_nil Function.name, declared,
    ← funext function_eq]
  exact congrArg mk (eraseDupsBy_map Definition.function named ds)

theorem names_ofDefinitions (ds : List Definition) :
    (ofDefinitions ds).names = (ds.map Definition.name).eraseDups := by
  rw [ofDefinitions_eq, names, declared, List.map_map]
  exact (eraseDups_map Definition.name ds).symm

theorem nodup_names_ofDefinitions (ds : List Definition) : (ofDefinitions ds).names.Nodup := by
  rw [names_ofDefinitions]
  exact nodup_eraseDups _

theorem mem_functions_ofDefinitions {ds : List Definition} {f : Function}
    (member : f ∈ (ofDefinitions ds).functions) : ∃ d ∈ ds, d.function = f := by
  rw [ofDefinitions_eq] at member
  obtain ⟨d, first, rfl⟩ := List.mem_map.mp member
  exact ⟨d, mem_of_mem_eraseDupsBy first, function_eq d⟩

open Grammar in
theorem readDefinitions_eq_ok_iff {text : String} {ds : List Definition} :
    readDefinitions text = .ok ds ↔
      ∃ tree : Derivation ((Token.scanText text).map Located.token), tree.val.definitions = ds := by
  rw [readDefinitions]
  constructor
  · intro accepted
    split at accepted
    · next state reached =>
      split at accepted
      · next finished =>
        cases accepted
        have reads := State.Reads.start.run (State.advance_eq_nil_iff.mp reached)
        obtain ⟨tree, same, tokens⟩ := reads.finish finished
        exact ⟨⟨tree, tokens⟩, same⟩
      · contradiction
    · contradiction
  · rintro ⟨⟨tree, tokens⟩, rfl⟩
    obtain ⟨state, reached, -, finished⟩ := run_program tree
    rw [tokens] at reached
    rw [State.advance_eq_nil_iff.mpr reached]
    simp only [finished]

theorem read_eq_ok_iff_definitions {text : String} {p : Program} :
    read text = .ok p ↔ ∃ ds, readDefinitions text = .ok ds ∧ ofDefinitions ds = p := by
  rw [read]
  cases readDefinitions text <;> simp [Except.map]

open Grammar in
theorem read_eq_ok_iff {text : String} {p : Program} :
    read text = .ok p ↔ ∃ tree : Derivation ((Token.scanText text).map Located.token),
      p = declared tree.val.definitions := by
  rw [read_eq_ok_iff_definitions]
  constructor
  · rintro ⟨ds, definitions, rfl⟩
    obtain ⟨tree, rfl⟩ := readDefinitions_eq_ok_iff.mp definitions
    exact ⟨tree, ofDefinitions_eq _⟩
  · rintro ⟨tree, rfl⟩
    exact ⟨_, readDefinitions_eq_ok_iff.mpr ⟨tree, rfl⟩, ofDefinitions_eq _⟩

theorem nodup_names_read {text : String} {p : Program} (accepted : read text = .ok p) :
    p.names.Nodup := by
  obtain ⟨ds, -, rfl⟩ := read_eq_ok_iff_definitions.mp accepted
  exact nodup_names_ofDefinitions ds

theorem nodup_formals_read {text : String} {p : Program} (accepted : read text = .ok p)
    {f : Function} (member : f ∈ p.functions) : (Parameter.formals f.parameters).Nodup := by
  obtain ⟨ds, -, rfl⟩ := read_eq_ok_iff_definitions.mp accepted
  obtain ⟨d, -, rfl⟩ := mem_functions_ofDefinitions member
  rw [function_eq, Parameter.formals_map_shared]
  exact nodup_eraseDups d.formals

open Grammar in
/-- A text is read as a program if and only if its tokens have a derivation whose tree declares the
program, and tokens have one derivation at most. -/
theorem read_exact : (∀ text p, read text = .ok p ↔
      ∃ tree : Derivation ((Token.scanText text).map Located.token),
        p = declared tree.val.definitions) ∧
    ∀ ts, Subsingleton (Derivation ts) := by
  refine ⟨fun _ _ => read_eq_ok_iff, fun ts => ⟨?_⟩⟩
  rintro ⟨p, first⟩ ⟨q, second⟩
  obtain rfl := tokens_inj (first.trans second.symm)
  rfl

end Program
end ProcessCalculus
