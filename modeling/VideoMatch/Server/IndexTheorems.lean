/-
VideoMatch.Server.IndexTheorems — the frame index as a list of pairs.

`Indexes table es` says that the key blocks of `table` hold the pairs
`es`, each exactly as often as `es` does, and each in the block of its
shortened key. What the operations do to the index is then an equation
about `es`: pushing a pair appends it, creating an empty block changes
nothing. Looking a hash up finds its pairs (`Indexes.mem_iff`), because a
block that holds a pair is the block its shortened key finds.

`Indexes` does not see empty blocks, which the size of the table counts.
`Reserves table R` says where they are: every key in `R` has a block, and
an empty block has its key in `R`.
-/
import VideoMatch.Server.Catalogue

namespace VideoMatch.Server

open VideoMatch.Cxx

namespace VideoDB

/-- The shortened key is the 20 high bits. -/
theorem toNat_keyShorten (h : UInt64) : (keyShorten h).toNat = h.toNat / 2 ^ 44 := by
  have hshift : (h >>> UInt64.ofNat (64 - HSIZE_BITS)).toNat = h.toNat / 2 ^ 44 := by
    have h44 : (UInt64.ofNat (64 - HSIZE_BITS)).toNat % 64 = 44 := by decide
    rw [UInt64.toNat_shiftRight, h44, Nat.shiftRight_eq_div_pow]
  have hlt : h.toNat < 2 ^ 64 := h.toNat_lt
  rw [keyShorten, UInt64.toNat_toUInt32, hshift, Nat.mod_eq_of_lt]
  omega

/-- The key blocks hold the pairs `es`, each under its shortened key. -/
structure Indexes (table : UnorderedMap UInt32 KeyBlock) (es : KeyBlock) : Prop where
  located : ∀ b kb, (b, kb) ∈ table.entries → ∀ e ∈ kb, b = keyShorten e.1
  exact : (table.entries.flatMap Prod.snd).Perm es

theorem indexes_empty : Indexes UnorderedMap.empty [] :=
  ⟨by simp, by simp⟩

theorem Indexes.perm {table : UnorderedMap UInt32 KeyBlock} {es es' : KeyBlock}
    (h : Indexes table es) (hp : es.Perm es') : Indexes table es' :=
  ⟨h.located, h.exact.trans hp⟩

/-- An empty block makes no difference. -/
theorem Indexes.insert_nil {table : UnorderedMap UInt32 KeyBlock} {es : KeyBlock}
    (h : Indexes table es) (b : UInt32) : Indexes (table.insert b []) es := by
  refine ⟨fun c kb hc e he => ?_, ?_⟩
  · rcases table.mem_entries_insert.mp hc with hc | ⟨-, hc⟩
    · exact h.located c kb hc e he
    · cases hc; cases he
  · cases hb : table.find? b with
    | none => simpa [table.entries_insert_of_none [] hb] using h.exact
    | some kb => rw [table.insert_of_some [] hb]; exact h.exact

/-- Looking the block up or creating it is one `insert`, which does not
overwrite. -/
theorem pushFrame_eq (table : UnorderedMap UInt32 KeyBlock) (k : UInt64) (di : Nat) :
    pushFrame table k di
      = (table.insert (keyShorten k) []).update (keyShorten k) (· ++ [(k, di)]) := by
  unfold pushFrame
  cases h : table.find? (keyShorten k) with
  | none => simp [h]
  | some kb => simp [h, table.insert_of_some [] h]

theorem Indexes.push {table : UnorderedMap UInt32 KeyBlock} {es : KeyBlock}
    (h : Indexes table es) (k : UInt64) (di : Nat) :
    Indexes (pushFrame table k di) (es ++ [(k, di)]) := by
  rw [pushFrame_eq]
  have hins := h.insert_nil (keyShorten k)
  refine ⟨fun b kb hb e he => ?_, ?_⟩
  · rw [UnorderedMap.entries_update, List.mem_map] at hb
    obtain ⟨⟨b', kb'⟩, hmem, heq⟩ := hb
    split at heq
    · next hkey =>
        cases heq
        rcases List.mem_append.mp he with he | he
        · exact hins.located _ _ hmem e he
        · rw [List.mem_singleton.mp he]; exact hkey
    · cases heq; exact hins.located _ _ hmem e he
  · exact (UnorderedMap.flatMap_update_perm _ (UnorderedMap.key_mem_insert _ _ _) _).trans
      (hins.exact.append_right _)

theorem Indexes.push_all (di : Nat) : ∀ (ks : List UInt64)
    {table : UnorderedMap UInt32 KeyBlock} {es : KeyBlock}, Indexes table es →
    Indexes (ks.foldl (fun t k => pushFrame t k di) table) (es ++ ks.map fun k => (k, di)) := by
  intro ks
  induction ks with
  | nil => intro _ _ h; simpa using h
  | cons k ks ih => intro _ _ h; simpa using ih (h.push k di)

/-! ## Empty blocks -/

/-- The keys in `R` have a block, and only they may have an empty one. -/
structure Reserves (table : UnorderedMap UInt32 KeyBlock) (R : Set UInt32) : Prop where
  present : ∀ b ∈ R, b ∈ table.entries.map Prod.fst
  empty : ∀ b, (b, []) ∈ table.entries → b ∈ R

theorem reserves_empty : Reserves UnorderedMap.empty ∅ := ⟨by simp, by simp⟩

/-- A new block has a key, whether it stays empty or not. -/
theorem Reserves.insert_nil {table : UnorderedMap UInt32 KeyBlock} {R : Set UInt32}
    (h : Reserves table R) (b : UInt32) : Reserves (table.insert b []) (Set.insert b R) := by
  refine ⟨fun c hc => ?_, fun c hc => ?_⟩
  · rcases hc with rfl | hc
    · exact table.key_mem_insert c []
    · obtain ⟨e, he, rfl⟩ := List.mem_map.mp (h.present c hc)
      exact List.mem_map_of_mem (table.mem_entries_insert.mpr (.inl he))
  · rcases table.mem_entries_insert.mp hc with hc | ⟨-, hc⟩
    · exact .inr (h.empty c hc)
    · cases hc; exact .inl rfl

/-- The block a pair is pushed to is not empty any more. -/
theorem Reserves.push {table : UnorderedMap UInt32 KeyBlock} {R : Set UInt32}
    (h : Reserves table R) (k : UInt64) (di : Nat) : Reserves (pushFrame table k di) R := by
  rw [pushFrame_eq]
  have hins := h.insert_nil (keyShorten k)
  refine ⟨fun c hc => ?_, fun c hc => ?_⟩
  · obtain ⟨e, he, rfl⟩ := List.mem_map.mp (hins.present c (.inr hc))
    refine List.mem_map.mpr ⟨_, List.mem_map_of_mem he, ?_⟩
    split <;> rfl
  · rw [UnorderedMap.entries_update, List.mem_map] at hc
    obtain ⟨⟨c', kb⟩, hmem, heq⟩ := hc
    split at heq
    · have hkb := (Prod.mk.inj heq).2
      simp at hkb
    · next hne =>
        cases heq
        rcases hins.empty c hmem with hkey | hc
        · exact absurd hkey hne
        · exact hc

theorem Reserves.push_all {R : Set UInt32} (di : Nat) : ∀ (ks : List UInt64)
    {table : UnorderedMap UInt32 KeyBlock}, Reserves table R →
    Reserves (ks.foldl (fun t k => pushFrame t k di) table) R := by
  intro ks
  induction ks with
  | nil => intro _ h; exact h
  | cons k ks ih => intro _ h; exact ih (h.push k di)

/-- The keys of the table: those in `R` and those of the pairs. -/
theorem Reserves.mem_keys {table : UnorderedMap UInt32 KeyBlock} {R : Set UInt32}
    {es : KeyBlock} (h : Reserves table R) (hes : Indexes table es) {b : UInt32} :
    b ∈ table.entries.map Prod.fst ↔ b ∈ R ∨ ∃ e ∈ es, keyShorten e.1 = b := by
  constructor
  · intro hb
    obtain ⟨⟨b, kb⟩, hmem, rfl⟩ := List.mem_map.mp hb
    cases kb with
    | nil => exact .inl (h.empty b hmem)
    | cons e kb =>
        have he : e ∈ es :=
          hes.exact.mem_iff.mp (List.mem_flatMap.mpr ⟨(b, e :: kb), hmem, by simp⟩)
        exact .inr ⟨e, he, (hes.located b _ hmem e (by simp)).symm⟩
  · intro hb
    rcases hb with hb | ⟨e, he, rfl⟩
    · exact h.present b hb
    · obtain ⟨⟨b, kb⟩, hmem, hkb⟩ := List.mem_flatMap.mp (hes.exact.mem_iff.mpr he)
      rw [← hes.located b kb hmem e hkb]
      exact List.mem_map_of_mem hmem

/-! ## Looking up -/

/-- A pair is in the index exactly if the block of its key holds it. -/
theorem Indexes.mem_iff {table : UnorderedMap UInt32 KeyBlock} {es : KeyBlock}
    (h : Indexes table es) {k : UInt64} {p : Nat} :
    (k, p) ∈ es ↔ ∃ kb, table.find? (keyShorten k) = some kb ∧ (k, p) ∈ kb := by
  rw [← h.exact.mem_iff, List.mem_flatMap]
  constructor
  · intro h
    obtain ⟨⟨b, kb⟩, hb, hmem⟩ := h
    refine ⟨kb, table.find?_eq_some_iff.mpr ?_, hmem⟩
    rw [← h.located b kb hb _ hmem]; exact hb
  · intro h
    obtain ⟨kb, hkb, hmem⟩ := h
    exact ⟨_, table.find?_eq_some_iff.mp hkb, hmem⟩

/-- A block holds a pair at most as often as the index does. -/
theorem Indexes.count_le {table : UnorderedMap UInt32 KeyBlock} {es : KeyBlock}
    (h : Indexes table es) {b : UInt32} {kb : KeyBlock} (hb : (b, kb) ∈ table.entries)
    (e : UInt64 × Nat) : kb.count e ≤ es.count e := by
  have hsub : kb.Sublist (table.entries.flatMap Prod.snd) := by
    rw [List.flatMap_def]
    exact List.sublist_flatten_of_mem (List.mem_map.mpr ⟨(b, kb), hb, rfl⟩)
  exact (hsub.count_le e).trans_eq (h.exact.count_eq e)

/-- The videos `get_candidates1` finds under one hash. -/
theorem Indexes.mem_lookupFrame {s : VideoDB} {es : KeyBlock} (h : Indexes s.table es)
    {k : UInt64} {p : Nat} : p ∈ s.lookupFrame k ↔ k ≠ EMPTY_FRAME ∧ (k, p) ∈ es := by
  unfold lookupFrame
  by_cases hk : k = EMPTY_FRAME
  · simp [hk]
  · rw [if_neg hk, h.mem_iff]
    cases hkb : s.table.find? (keyShorten k) with
    | none => simp
    | some kb => simp [hk]

/-- The sum `FramesCount` computes, in the `int` it returns. -/
theorem framesCount_eq (s : VideoDB) :
    s.framesCount = toInt (s.table.entries.flatMap Prod.snd).length := by
  have hfold : ∀ (es : List (UInt32 × KeyBlock)) (n : Nat),
      es.foldl (fun (result : Int) i => toInt ((result % 2 ^ 32).toNat + i.2.length)) (toInt n)
        = toInt (n + (es.flatMap Prod.snd).length) := by
    intro es
    induction es with
    | nil => intro n; simp
    | cons e es ih =>
        intro n
        have hstep : toInt ((toInt n % 2 ^ 32).toNat + e.2.length) = toInt (n + e.2.length) := by
          rw [toInt_emod, ← toInt_mod, Nat.mod_add_mod, toInt_mod]
        rw [List.foldl_cons, hstep, ih, List.flatMap_cons, List.length_append, Nat.add_assoc]
  have hzero : toInt 0 = 0 := by decide
  have h := hfold s.table.entries 0
  rw [hzero, Nat.zero_add] at h
  exact h

end VideoDB

end VideoMatch.Server
