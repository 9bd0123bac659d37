import GuardedConfig.Predicate.Compile

/-!
# The cache of compiled predicates

Compiled predicates are kept by their text and the shape they were compiled for, and are never
given up. A compilation that fails is not recorded. Every stored predicate carries the number of
its entry, which tells whether two look-ups gave the same one.

Results:
* `getOrCompile_of_get?`: a stored predicate is returned as it is, and the cache does not change.
* `getOrCompile_of_error`: a failed compilation does not change the cache.
-/

namespace GuardedConfig

/-- What a compiled predicate is stored by. -/
structure CacheKey where
  predicate : String
  shape : Shape
  deriving DecidableEq

/-- A compiled predicate as it is stored. -/
structure Artifact where
  /-- The number of its entry, counted from zero. -/
  serial : Nat
  compiled : CompiledPredicate
  deriving DecidableEq

/-- A store of compiled predicates. -/
structure Cache where
  /-- The entries in the order in which they were made. -/
  entries : List (CacheKey × Artifact)
  /-- The number of successful compilations so far. -/
  compilations : Nat
  deriving DecidableEq

namespace Cache

/-- The cache without entries. -/
def empty : Cache := ⟨[], 0⟩

instance : Inhabited Cache := ⟨empty⟩

/-- The number of entries. -/
def length (c : Cache) : Nat :=
  c.entries.length

/-- The predicate stored by a key. -/
def get? (c : Cache) (key : CacheKey) : Option Artifact :=
  (c.entries.find? fun e => e.1 = key).map Prod.snd

/-- The cache with a freshly compiled predicate stored by a key. -/
def store (c : Cache) (key : CacheKey) (p : CompiledPredicate) : Cache where
  entries := c.entries ++ [(key, ⟨c.length, p⟩)]
  compilations := c.compilations + 1

/-- The predicate stored for a text and a shape, compiled and stored first if there is none. -/
def getOrCompile (predicate : String) (shape : Shape) (c : Cache) :
    Except CompileError Artifact × Cache :=
  match c.get? ⟨predicate, shape⟩ with
  | some a => (.ok a, c)
  | none =>
    match CompiledPredicate.compile predicate shape with
    | .ok p => (.ok ⟨c.length, p⟩, c.store ⟨predicate, shape⟩ p)
    | .error e => (.error e, c)

theorem getOrCompile_of_get? {c : Cache} {predicate : String} {shape : Shape} {a : Artifact}
    (h : c.get? ⟨predicate, shape⟩ = some a) :
    c.getOrCompile predicate shape = (.ok a, c) := by
  simp [getOrCompile, h]

theorem getOrCompile_of_error {c : Cache} {predicate : String} {shape : Shape} {e : CompileError}
    (h : (c.getOrCompile predicate shape).1 = .error e) :
    (c.getOrCompile predicate shape).2 = c := by
  simp only [getOrCompile] at h ⊢
  split
  · rfl
  · rename_i hg
    rw [hg] at h
    split
    · rename_i hc
      rw [hc] at h
      cases h
    · rfl

end Cache

end GuardedConfig
