import Erofs.Path
/-!
# The names of a path

The names of a path are the pieces between its slashes, but for the pieces
that are empty or `.`, and these are its components
(`components_eq_names`). So a slash puts the names of what follows it
behind those of what stands before (`names_append_slash`), and a path that
is made of names has these names (`names_ofNames`).
-/

namespace Erofs.Path

/-- The names of a path. -/
def names (path : String) : List String :=
  ((path.toList.splitOn '/').filter fun piece => piece ≠ [] ∧ piece ≠ ['.']).map String.ofList

/-- Pieces are cut out at every slash. -/
theorem pieces_eq_splitOn (path : List Char) : pieces path = path.splitOn '/' := by
  induction path with
  | nil => rfl
  | cons c rest ih =>
    have hne : rest.splitOn '/' ≠ [] := List.splitOn_ne_nil _ rest
    rw [pieces, ih, List.splitOn_cons_eq_if_modifyHead]
    cases hsplit : rest.splitOn '/' with
    | nil => exact absurd hsplit hne
    | cons piece others => by_cases h : c = '/' <;> simp [h]

/-- **The components of a path are its names.** -/
theorem components_eq_names (path : String) : components path = names path := by
  rw [components, names, pieces_eq_splitOn]
  refine congrArg _ (List.filter_congr fun piece _ => ?_)
  by_cases hempty : piece = []
  · simp [hempty]
  · by_cases hdot : piece = ['.'] <;> simp [hempty, hdot]

/-- The names behind a slash follow those in front of it. -/
theorem names_append_slash (path rest : String) :
    names (path ++ "/" ++ rest) = names path ++ names rest := by
  have hlist : (path ++ "/" ++ rest).toList = path.toList ++ '/' :: rest.toList := by
    simp
  rw [names, hlist, List.splitOn_append_cons_self, List.filter_append, List.map_append]
  rfl

/-- What can be a name of a path. -/
def IsName (name : String) : Prop := name ≠ "" ∧ name ≠ "." ∧ '/' ∉ name.toList

instance (name : String) : Decidable (IsName name) :=
  inferInstanceAs (Decidable (_ ∧ _ ∧ _))

/-- Such a name is its own only name. -/
theorem names_of_isName {name : String} (h : IsName name) : names name = [name] := by
  obtain ⟨hempty, hdot, hslash⟩ := h
  have hsplit : name.toList.splitOn '/' = [name.toList] := by
    have hone : (['/'].intercalate [name.toList]).splitOn '/' = [name.toList] :=
      List.splitOn_intercalate '/' (by simpa using hslash) (by simp)
    simpa using hone
  have hempty : name.toList ≠ [] := by
    simpa using hempty
  have hdot : name.toList ≠ ['.'] := fun hlist => hdot (String.toList_inj.mp (hlist.trans rfl))
  rw [names, hsplit]
  simp [hempty, hdot]

/-- The path that is made of some names. -/
def ofNames (names : List String) : String := names.foldl (fun path name => path ++ "/" ++ name) ""

/-- **The names of a path that is made of names** are these names. -/
theorem names_ofNames {chain : List String} (h : ∀ name ∈ chain, IsName name) :
    names (ofNames chain) = chain := by
  -- the names are put behind a path whose names are known
  suffices hbehind : ∀ path,
      names (chain.foldl (fun path name => path ++ "/" ++ name) path) = names path ++ chain from
    hbehind ""
  induction chain with
  | nil => exact fun path => (List.append_nil _).symm
  | cons name rest ih =>
    intro path
    rw [List.foldl_cons, ih fun name hname => h name (List.mem_cons_of_mem _ hname),
      names_append_slash, names_of_isName (h name List.mem_cons_self), List.append_assoc,
      List.singleton_append]

end Erofs.Path
