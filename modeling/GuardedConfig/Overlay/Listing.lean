/-!
# Listings of values by path

A listing holds texts by their paths, in the order of the paths, each path once.

Results:
* `lookup_put_self`, `lookup_put_of_ne`: writing a value changes what its path holds and nothing
  else.
-/

namespace GuardedConfig

/-- Values by their paths. -/
abbrev Listing := List (String × String)

namespace Listing

/-- The listing with a value written at a path. -/
def put (path value : String) : Listing → Listing
  | [] => [(path, value)]
  | (p, v) :: l =>
    if path < p then (path, value) :: (p, v) :: l
    else if path = p then (path, value) :: l
    else (p, v) :: put path value l

theorem lookup_put_self (path value : String) (l : Listing) :
    (put path value l).lookup path = some value := by
  induction l with
  | nil => simp [put]
  | cons e l ih =>
    obtain ⟨p, v⟩ := e
    simp only [put]
    split
    · simp
    · split
      · simp
      · rename_i h
        have hb : (path == p) = false := by simpa using h
        rw [List.lookup_cons, hb]
        exact ih

theorem lookup_put_of_ne {path q : String} (h : q ≠ path) (value : String) (l : Listing) :
    (put path value l).lookup q = l.lookup q := by
  have hq : (q == path) = false := by simpa using h
  induction l with
  | nil => simp [put, List.lookup_cons, hq]
  | cons e l ih =>
    obtain ⟨p, v⟩ := e
    simp only [put]
    split
    · rw [List.lookup_cons, hq]
    · split
      · rename_i hp
        subst hp
        rw [List.lookup_cons, hq, List.lookup_cons, hq]
      · rw [List.lookup_cons, List.lookup_cons, ih]

end Listing

end GuardedConfig
