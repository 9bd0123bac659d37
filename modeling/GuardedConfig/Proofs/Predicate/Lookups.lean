import GuardedConfig.Proofs.Predicate.Evaluation
import GuardedConfig.Proofs.Rule.Questions

/-!
# What a cache holds after look-ups

A cache changes by being asked for keys, one after the other, and by nothing else. It then holds
exactly the keys it was asked for that compile, each in one entry that stays as it was made.

Results:
* `Cache.lookUp_cases`: a look-up changes the cache only if it compiles a key that was not stored.
* `Cache.Holds.lookUp`, `Cache.Holds.lookUps`: what a cache holds after look-ups.
* `Cache.Holds.serial_inj`: the numbers of the entries tell them apart.
* `Cache.get?_lookUps`: a stored predicate stays the same one.
* `Cache.snd_evaluate`, `Cache.snd_compiled`: an evaluator makes one look-up at most.
-/

namespace GuardedConfig

/-- The text compiles for the shape. -/
def CacheKey.Compiles (key : CacheKey) : Prop :=
  ∃ p, CompiledPredicate.compile key.predicate key.shape = .ok p

/-- The key that the built-in evaluator looks up for a question, if it comes to a look-up. -/
def Question.key? (q : Question) : Option CacheKey :=
  match Cache.contextFor q.predicate q.context with
  | .ok c => some ⟨q.predicate, .ofContext c⟩
  | .error _ => none

/-- A text that compiles is not blank. -/
theorem CompiledPredicate.not_blank_of_compile {source : String} {shape : Shape}
    {p : CompiledPredicate} (h : compile source shape = .ok p) : blankText source = false := by
  rw [← Bool.not_eq_true]
  intro hblank
  cases hparse : parse source with
  | error err =>
    rw [compile_of_parse_error hparse] at h
    cases h
  | ok e =>
    have hempty : parse "" = .ok e :=
      (parse_append_blank hblank e).mp (by rwa [String.append_empty])
    have hnothing : parse "" = .error ⟨"", 0, .noOperand 0⟩ := by cbv
    rw [hnothing] at hempty
    cases hempty

namespace Cache

/-- The stored keys in the order of their entries. -/
def keys (cache : Cache) : List CacheKey :=
  cache.entries.map Prod.fst

/-- The cache after it was asked for a key. -/
def lookUp (cache : Cache) (key : CacheKey) : Cache :=
  (cache.getOrCompile key.predicate key.shape).2

theorem get?_eq_none_iff {cache : Cache} {key : CacheKey} :
    cache.get? key = none ↔ key ∉ cache.keys := by
  rw [get?, Option.map_eq_none_iff, List.find?_eq_none]
  constructor
  · intro h hmem
    obtain ⟨e, he, rfl⟩ := List.mem_map.mp hmem
    exact h e he (by simp)
  · intro h e he hkey
    exact h (List.mem_map.mpr ⟨e, he, by simpa using hkey⟩)

theorem mem_entries_of_get? {cache : Cache} {key : CacheKey} {a : Artifact}
    (h : cache.get? key = some a) : (key, a) ∈ cache.entries := by
  obtain ⟨⟨k, b⟩, hfind, rfl⟩ := Option.map_eq_some_iff.mp h
  have hk : k = key := by simpa using List.find?_some hfind
  exact hk ▸ List.mem_of_find?_eq_some hfind

/-- A look-up finds the key, or stores what it compiles to, or fails to compile it. -/
theorem lookUp_cases (cache : Cache) (key : CacheKey) :
    (key ∈ cache.keys ∧ cache.lookUp key = cache) ∨
    (key ∉ cache.keys ∧ ∃ p, CompiledPredicate.compile key.predicate key.shape = .ok p ∧
      cache.lookUp key = cache.store key p) ∨
    (¬key.Compiles ∧ cache.lookUp key = cache) := by
  unfold lookUp getOrCompile
  cases hget : cache.get? key with
  | some a =>
    have hmem : key ∈ cache.keys := List.mem_map_of_mem (mem_entries_of_get? hget)
    exact .inl ⟨hmem, rfl⟩
  | none =>
    cases hc : CompiledPredicate.compile key.predicate key.shape with
    | ok p => exact .inr (.inl ⟨get?_eq_none_iff.mp hget, p, rfl, rfl⟩)
    | error e =>
      have hnone : ¬key.Compiles := fun ⟨p, hp⟩ => by simp [hc] at hp
      exact .inr (.inr ⟨hnone, rfl⟩)

theorem lookUp_of_stored_or_not_compiles {cache : Cache} {key : CacheKey}
    (h : key.Compiles → key ∈ cache.keys) : cache.lookUp key = cache := by
  obtain ⟨-, hsame⟩ | ⟨habsent, p, hp, -⟩ | ⟨-, hsame⟩ := cache.lookUp_cases key
  · exact hsame
  · exact absurd (h ⟨p, hp⟩) habsent
  · exact hsame

theorem lookUps_of_stored_or_not_compiles {cache : Cache} {asked : List CacheKey}
    (h : ∀ key ∈ asked, key.Compiles → key ∈ cache.keys) : asked.foldl lookUp cache = cache := by
  induction asked with
  | nil => rfl
  | cons key asked ih =>
    rw [List.foldl_cons, lookUp_of_stored_or_not_compiles (h key List.mem_cons_self)]
    exact ih fun k hk => h k (List.mem_cons_of_mem key hk)

/-! ## What is stored -/

/-- What a cache holds that has been asked for keys. -/
structure Holds (cache : Cache) (asked : List CacheKey) : Prop where
  sound : cache.Sound
  nodup : cache.keys.Nodup
  mem_keys : ∀ key, key ∈ cache.keys ↔ key ∈ asked ∧ key.Compiles
  compilations : cache.compilations = cache.length
  /-- Every stored predicate has the number of its entry. -/
  serials : cache.entries.map (fun e => e.2.serial) = List.range cache.length

theorem holds_empty : Holds empty [] where
  sound := sound_empty
  nodup := List.nodup_nil
  mem_keys := by simp [keys, empty]
  compilations := rfl
  serials := rfl

theorem Holds.of_same {cache : Cache} {asked : List CacheKey} (h : cache.Holds asked)
    {key : CacheKey} (hkey : key.Compiles → key ∈ cache.keys) : cache.Holds (asked ++ [key]) where
  sound := h.sound
  nodup := h.nodup
  compilations := h.compilations
  serials := h.serials
  mem_keys k := by
    rw [h.mem_keys, List.mem_append, List.mem_singleton]
    constructor
    · rintro ⟨hasked, hk⟩
      exact ⟨.inl hasked, hk⟩
    · rintro ⟨hasked | rfl, hk⟩
      · exact ⟨hasked, hk⟩
      · exact (h.mem_keys k).mp (hkey hk)

theorem Holds.store {cache : Cache} {asked : List CacheKey} (h : cache.Holds asked)
    {key : CacheKey} (habsent : key ∉ cache.keys) {p : CompiledPredicate}
    (hp : CompiledPredicate.compile key.predicate key.shape = .ok p) :
    (cache.store key p).Holds (asked ++ [key]) where
  sound := h.sound.store hp
  nodup := by
    have hkeys : (cache.store key p).keys = cache.keys ++ [key] := by simp [keys, Cache.store]
    rw [hkeys]
    exact List.nodup_append.mpr ⟨h.nodup, List.nodup_singleton key, by
      rintro k hk l hl rfl
      exact habsent (List.mem_singleton.mp hl ▸ hk)⟩
  compilations := by simp [Cache.store, length, h.compilations]
  serials := by
    have hserials := h.serials
    simp only [length] at hserials
    simp [Cache.store, length, List.range_succ, hserials]
  mem_keys k := by
    have hkeys : k ∈ (cache.store key p).keys ↔ k ∈ cache.keys ∨ k = key := by
      simp [keys, Cache.store]
    rw [hkeys, h.mem_keys, List.mem_append, List.mem_singleton]
    constructor
    · rintro (⟨hasked, hk⟩ | rfl)
      · exact ⟨.inl hasked, hk⟩
      · exact ⟨.inr rfl, p, hp⟩
    · rintro ⟨hasked | rfl, hk⟩
      · exact .inl ⟨hasked, hk⟩
      · exact .inr rfl

theorem Holds.lookUp {cache : Cache} {asked : List CacheKey} (h : cache.Holds asked)
    (key : CacheKey) : (cache.lookUp key).Holds (asked ++ [key]) := by
  obtain ⟨hstored, hsame⟩ | ⟨habsent, p, hp, hstore⟩ | ⟨hfails, hsame⟩ := cache.lookUp_cases key
  · rw [hsame]
    exact h.of_same fun _ => hstored
  · rw [hstore]
    exact h.store habsent hp
  · rw [hsame]
    exact h.of_same fun hc => absurd hc hfails

theorem Holds.lookUps {cache : Cache} {asked : List CacheKey} (h : cache.Holds asked)
    (more : List CacheKey) : (more.foldl Cache.lookUp cache).Holds (asked ++ more) := by
  induction more generalizing cache asked with
  | nil => rwa [List.append_nil]
  | cons key more ih =>
    rw [List.foldl_cons, List.append_cons]
    exact ih (h.lookUp key)

/-- Two stored predicates with one number are one. -/
theorem Holds.serial_inj {cache : Cache} {asked : List CacheKey} (h : cache.Holds asked)
    {k l : CacheKey} {a b : Artifact} (hk : cache.get? k = some a) (hl : cache.get? l = some b)
    (hserial : a.serial = b.serial) : k = l := by
  have hplace {key : CacheKey} {x : Artifact} (hget : cache.get? key = some x) :
      cache.entries[x.serial]? = some (key, x) := by
    obtain ⟨i, hi⟩ := List.mem_iff_getElem?.mp (mem_entries_of_get? hget)
    have hlt := (List.getElem?_eq_some_iff.mp hi).1
    have hnumber := congrArg (·[i]?) h.serials
    simp only [List.getElem?_map, hi, Option.map_some, length, List.getElem?_range hlt,
      Option.some.injEq] at hnumber
    rwa [hnumber]
  have hsame := (hplace hk).symm.trans (hserial ▸ hplace hl)
  exact congrArg Prod.fst (Option.some.inj hsame)

/-! ## What stays -/

theorem get?_lookUp {cache : Cache} {key : CacheKey} {a : Artifact}
    (h : cache.get? key = some a) (other : CacheKey) :
    (cache.lookUp other).get? key = some a := by
  obtain ⟨-, hsame⟩ | ⟨-, p, -, hstore⟩ | ⟨-, hsame⟩ := cache.lookUp_cases other
  · rwa [hsame]
  · obtain ⟨e, hfind, ha⟩ := Option.map_eq_some_iff.mp h
    rw [hstore, get?, Cache.store, List.find?_append, hfind]
    exact congrArg some ha
  · rwa [hsame]

theorem get?_lookUps {cache : Cache} {key : CacheKey} {a : Artifact}
    (h : cache.get? key = some a) (asked : List CacheKey) :
    (asked.foldl lookUp cache).get? key = some a := by
  induction asked generalizing cache with
  | nil => exact h
  | cons other asked ih => exact ih (get?_lookUp h other)

theorem compiled_of_get? {cache : Cache} (h : cache.Sound) {key : CacheKey} {a : Artifact}
    (hget : cache.get? key = some a) {c : Context} (hc : Shape.ofContext c = key.shape) :
    compiled key.predicate (some c) cache = (.ok a, cache) := by
  have hblank := CompiledPredicate.not_blank_of_compile (h.compile_of_get? hget)
  have hcontext : contextFor key.predicate (some c) = .ok c := by simp [contextFor, hblank]
  have hfound := getOrCompile_of_get? hget
  simp only [compiled, hcontext, hc, hfound, Except.mapError]

theorem compiled_of_error {cache : Cache} {predicate : String} {context : Option Context}
    {e : RuleError} (h : (compiled predicate context cache).1 = .error e) :
    (compiled predicate context cache).2 = cache := by
  unfold compiled at h ⊢
  cases hcontext : contextFor predicate context with
  | error e => rfl
  | ok c =>
    simp only [hcontext] at h
    cases hget : (cache.getOrCompile predicate (.ofContext c)).1 with
    | ok a => simp [hget, Except.mapError] at h
    | error e => exact getOrCompile_of_error hget

theorem evaluate_of_compilation_error {cache : Cache} {predicate text : String}
    {context : Option Context} {e : CompileError}
    (h : (evaluate predicate context cache).1 = .error (.compilation text e)) :
    (evaluate predicate context cache).2 = cache := by
  unfold evaluate at h ⊢
  cases hcontext : contextFor predicate context with
  | error e => rfl
  | ok c =>
    simp only [hcontext] at h ⊢
    rcases hlook : cache.getOrCompile predicate (.ofContext c) with ⟨cause | a, cache'⟩
    · have hsame := getOrCompile_of_error (congrArg Prod.fst hlook)
      rwa [hlook] at hsame
    · -- a predicate that compiled can fail in its run only
      simp only [hlook] at h
      cases hrun : a.compiled.run (c.flatten.map Prod.snd) with
      | ok b => simp [hrun, Except.mapError] at h
      | error fault => simp [hrun, Except.mapError] at h

/-! ## Questions -/

/-- The look-ups of one question: one, or none for a blank text or without a context. -/
theorem snd_evaluate (predicate : String) (context : Option Context) (cache : Cache) :
    (evaluate predicate context cache).2 =
      (Question.key? ⟨predicate, context⟩).toList.foldl lookUp cache := by
  unfold evaluate Question.key?
  cases contextFor predicate context with
  | error e => rfl
  | ok c =>
    simp only [Option.toList_some, List.foldl_cons, List.foldl_nil, lookUp]
    rcases cache.getOrCompile predicate (.ofContext c) with ⟨_ | a, cache'⟩ <;> rfl

theorem snd_compiled (predicate : String) (context : Option Context) (cache : Cache) :
    (compiled predicate context cache).2 =
      (Question.key? ⟨predicate, context⟩).toList.foldl lookUp cache := by
  unfold compiled Question.key?
  cases contextFor predicate context with
  | error e => rfl
  | ok c => rfl

end Cache

end GuardedConfig
