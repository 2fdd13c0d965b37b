import Mathlib.Data.List.Infix

/-!
# Lexical path resolution

A path string names the list of the components between its slashes, resolved
lexically from the root: empty components and `.` are skipped, and `..`
removes the component before it. (Symbolic links, which a lexical resolution
cannot see, are assumed absent.)
-/

namespace LexPath

/-- A resolved path: the names from the root down. -/
abbrev Path := List (List UInt8)

def sep : UInt8 := 47
def dot : List UInt8 := [46]
def dotdot : List UInt8 := [46, 46]

/-- The components of a path string. -/
def components (s : List UInt8) : List (List UInt8) := s.splitOn sep

/-- Descend from a resolved path by one component. -/
def push (p : Path) (c : List UInt8) : Path :=
  if c = [] ∨ c = dot then p else if c = dotdot then p.dropLast else p ++ [c]

/-- The path a string names. -/
def resolve (s : List UInt8) : Path := (components s).foldl push []

/-- No component of the string is `.` or `..`. -/
def NoDots (s : List UInt8) : Prop := ∀ c ∈ components s, c ≠ dot ∧ c ≠ dotdot

instance (s : List UInt8) : Decidable (NoDots s) := List.decidableBAll _ _

theorem components_append (a b : List UInt8) :
    components (a ++ sep :: b) = components a ++ components b :=
  List.splitOn_append_cons_self a b

theorem resolve_append (a b : List UInt8) :
    resolve (a ++ sep :: b) = (components b).foldl push (resolve a) := by
  rw [resolve, components_append, List.foldl_append]
  rfl

/-- Without dots, the nonempty components are appended one after the other. -/
theorem foldl_push (p : Path) {cs : List (List UInt8)} (h : ∀ c ∈ cs, c ≠ dot ∧ c ≠ dotdot) :
    cs.foldl push p = p ++ cs.filter (· ≠ []) := by
  induction cs generalizing p with
  | nil => simp
  | cons c cs ih =>
    obtain ⟨hdot, hdotdot⟩ := h c List.mem_cons_self
    rw [List.foldl_cons, ih _ fun x hx => h x (List.mem_cons_of_mem _ hx)]
    by_cases hc : c = []
    · simp [push, hc]
    · simp [push, hc, hdot, hdotdot]

/-- Appending a string without dots descends by its nonempty components. -/
theorem resolve_append_of_noDots {a b : List UInt8} (h : NoDots b) :
    resolve (a ++ sep :: b) = resolve a ++ (components b).filter (· ≠ []) := by
  rw [resolve_append, foldl_push _ h]

theorem noDots_append {a b : List UInt8} :
    NoDots (a ++ sep :: b) ↔ NoDots a ∧ NoDots b := by
  simp only [NoDots, components_append, List.forall_mem_append]

@[simp]
theorem components_nil : components [] = [[]] := rfl

/-- A string that is not empty and does not start with a slash has a nonempty
    component. -/
theorem exists_component_ne_nil {s : List UInt8} (hne : s ≠ []) (hhead : s.head? ≠ some sep) :
    ∃ c ∈ components s, c ≠ [] := by
  obtain ⟨b, s, rfl⟩ := List.exists_cons_of_ne_nil hne
  have hb : b ≠ sep := by simpa using hhead
  rw [components, List.splitOn_cons_eq_if_modifyHead, if_neg (by simpa using hb)]
  obtain ⟨w, ws, hw⟩ := List.exists_cons_of_ne_nil (List.splitOn_ne_nil sep s)
  exact ⟨b :: w, by rw [hw]; simp, by simp⟩

end LexPath
