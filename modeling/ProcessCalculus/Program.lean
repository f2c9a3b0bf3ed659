import ProcessCalculus.BitSet
import ProcessCalculus.Function

/-!
Programs: functions in the order of their declaration, looked up by name. A name is declared once,
and a later function of the same name is refused.
-/
namespace ProcessCalculus

structure Program where
  functions : List Function
deriving DecidableEq

namespace Program

def empty : Program := ⟨[]⟩

def size (p : Program) : Nat := p.functions.length

/-- The declared names, in order. -/
def names (p : Program) : List String := p.functions.map (·.name)

def contains (p : Program) (name : String) : Bool := p.functions.any (·.name = name)

def function? (p : Program) (name : String) : Option Function :=
  p.functions.find? (·.name = name)

/-- The place of the function of that name among the declarations. -/
def position? (p : Program) (name : String) : Option Nat :=
  p.functions.findIdx? (·.name = name)

/-- Declares a function after the others; refused where its name is taken. -/
def add? (p : Program) (f : Function) : Option Program :=
  if p.contains f.name then none else some ⟨p.functions ++ [f]⟩

/-- Declares a function after the others unless its name is taken. -/
def add (p : Program) (f : Function) : Program := (p.add? f).getD p

/-- Declares the functions one after the other, the first of each name. -/
def ofFunctions (fs : List Function) : Program := fs.foldl add empty

/-- Changes the function of that name. -/
def modify (p : Program) (name : String) (change : Function → Function) : Program :=
  match p.position? name with
  | none => p
  | some i => ⟨p.functions.modify i change⟩

/-- Leaves out the functions whose places are in the set. -/
def without (p : Program) (places : BitSet) : Program :=
  ⟨(p.functions.zipIdx.filter fun (_, i) => !places.contains i).map (·.1)⟩

def render (p : Program) : String := String.join (p.functions.map Function.render)

theorem contains_iff (p : Program) (name : String) : p.contains name = true ↔ name ∈ p.names := by
  simp [contains, names]

theorem add_of_mem {p : Program} {f : Function} (taken : f.name ∈ p.names) : p.add f = p := by
  rw [add, add?, if_pos ((p.contains_iff _).mpr taken), Option.getD_none]

theorem add_of_not_mem {p : Program} {f : Function} (fresh : f.name ∉ p.names) :
    p.add f = ⟨p.functions ++ [f]⟩ := by
  rw [add, add?, if_neg (mt (p.contains_iff _).mp fresh), Option.getD_some]

theorem names_add (p : Program) (f : Function) :
    (p.add f).names = if f.name ∈ p.names then p.names else p.names ++ [f.name] := by
  split
  · next taken => rw [add_of_mem taken]
  · next fresh => simp [add_of_not_mem fresh, names]

theorem sublist_functions_without (p : Program) (places : BitSet) :
    (p.without places).functions.Sublist p.functions := by
  have fewer : (p.functions.zipIdx.filter fun x => !places.contains x.2).Sublist
      p.functions.zipIdx := List.filter_sublist
  have functions := fewer.map Prod.fst
  rwa [List.zipIdx_map_fst] at functions

theorem mem_functions_add {p : Program} {f g : Function} (member : g ∈ (p.add f).functions) :
    g ∈ p.functions ∨ g = f := by
  by_cases taken : f.name ∈ p.names
  · rw [add_of_mem taken] at member
    exact .inl member
  · rw [add_of_not_mem taken] at member
    exact (List.mem_append.mp member).imp_right List.mem_singleton.mp

/-- Distinct names stay distinct when a function is declared. -/
theorem nodup_names_add {p : Program} (distinct : p.names.Nodup) (f : Function) :
    (p.add f).names.Nodup := by
  rw [names_add]
  split
  · exact distinct
  · next fresh =>
    rw [List.nodup_append]
    refine ⟨distinct, by simp, ?_⟩
    intro a ha b hb same
    rw [List.mem_singleton.mp hb] at same
    exact fresh (same ▸ ha)

end Program
end ProcessCalculus
