import Mathlib.Data.List.Nodup

/-!
# Records in a table

A list of records, each with its key, is what users of a table have in mind: a record is
entered, a record is replaced by another, under the same key or a new one, and a record is
taken away. The table knows the keys only. It goes on holding the records as long as each of
its changes does what the change of the records says.

## Main definitions

* `Change`, `Change.apply` — what happens to the records
* `Effect` — what a change does to a table that keeps the records
* `Holds` — the table holds exactly the records, one under each key

## Main results

* `Holds.apply` — a change with its effect goes on holding the records
-/

namespace Esif.CS.Records

variable {κ α : Type*}

/-- A change of the records. -/
inductive Change (κ α : Type*) where
  | entered (key : κ) (value : α)
  | replaced (old key : κ) (value : α)
  | removed (key : κ)

/-- The records after a change. -/
def Change.apply [DecidableEq κ] (records : List (κ × α)) : Change κ α → List (κ × α)
  | entered key value => records ++ [(key, value)]
  | replaced old key value => records.map fun r => if r.1 = old then (key, value) else r
  | removed key => records.filter fun r => r.1 ≠ key

variable (IsKey : κ → Prop)

/-- What a change does to the table. A new record takes a free key; a record that is replaced
gives its key free, unless the new one has it; everything else stays. -/
def Effect (table : κ → Option α) (table' : κ → Option α) : Change κ α → Prop
  | .entered key value => IsKey key ∧ table key = none ∧ table' key = some value ∧
      ∀ k, IsKey k → k ≠ key → table' k = table k
  | .replaced old key value => (IsKey old ∧ IsKey key) ∧ table old ≠ none ∧
      table' key = some value ∧ (key ≠ old → table key = none ∧ table' old = none) ∧
      ∀ k, IsKey k → k ≠ key → k ≠ old → table' k = table k
  | .removed key => table' key = none ∧ ∀ k, IsKey k → k ≠ key → table' k = table k

/-- The table holds the records: each key has one record, and the keys of the table are those
of the records. -/
structure Holds (table : κ → Option α) (records : List (κ × α)) : Prop where
  nodup : (records.map Prod.fst).Nodup
  isKey : ∀ r ∈ records, IsKey r.1
  iff_mem : ∀ k, IsKey k → ∀ v, table k = some v ↔ (k, v) ∈ records

section Holds

variable {IsKey} {table table' : κ → Option α} {records : List (κ × α)} {key old k : κ} {v : α}

/-- A table without keys holds no records. -/
theorem holds_nil (h : ∀ k, IsKey k → table k = none) : Holds IsKey table [] := by
  refine ⟨List.nodup_nil, by simp, fun k hk v => ?_⟩
  simp [h k hk]

/-- Only the keys of the records matter. -/
theorem Holds.congr (h : Holds IsKey table records)
    (hsame : ∀ k, IsKey k → table' k = table k) : Holds IsKey table' records := by
  refine ⟨h.nodup, h.isKey, fun k hk v => ?_⟩
  rw [hsame k hk]
  exact h.iff_mem k hk v

theorem Holds.free (h : Holds IsKey table records) (hkey : IsKey key) (hfree : table key = none) :
    key ∉ records.map Prod.fst := by
  intro hmem
  obtain ⟨⟨k, v⟩, hr, rfl⟩ := List.mem_map.mp hmem
  have hsome := (h.iff_mem k hkey v).mpr hr
  rw [hfree] at hsome
  cases hsome

theorem Holds.entered (h : Holds IsKey table records)
    (heffect : Effect IsKey table table' (.entered key v)) :
    Holds IsKey table' (records ++ [(key, v)]) := by
  obtain ⟨hkey, hfree, hset, hrest⟩ := heffect
  -- a free key is no record's key
  have hnew := h.free hkey hfree
  refine ⟨?_, ?_, fun k hk w => ?_⟩
  · rw [List.map_append, List.nodup_append]
    refine ⟨h.nodup, List.nodup_singleton _, fun a ha b hb hab => hnew ?_⟩
    obtain rfl : b = key := by simpa using hb
    exact hab ▸ ha
  · intro r hr
    rcases List.mem_append.mp hr with hr | hr
    · exact h.isKey r hr
    · obtain rfl := List.mem_singleton.mp hr
      exact hkey
  · rw [List.mem_append, List.mem_singleton]
    by_cases hk' : k = key
    · subst hk'
      rw [hset]
      constructor
      · intro hw
        exact Or.inr (by rw [Option.some.inj hw])
      · rintro (hmem | heq)
        · exact absurd (List.mem_map.mpr ⟨_, hmem, rfl⟩) hnew
        · rw [(Prod.mk.inj heq).2]
    · rw [hrest k hk hk', h.iff_mem k hk w]
      constructor
      · exact Or.inl
      · rintro (hmem | heq)
        · exact hmem
        · exact absurd (Prod.mk.inj heq).1 hk'

variable [DecidableEq κ]

theorem Holds.removed (h : Holds IsKey table records)
    (heffect : Effect IsKey table table' (.removed key)) :
    Holds IsKey table' (records.filter fun r => r.1 ≠ key) := by
  obtain ⟨hnone, hrest⟩ := heffect
  refine ⟨?_, fun r hr => h.isKey r (List.mem_filter.mp hr).1, fun k hk w => ?_⟩
  · exact h.nodup.sublist (List.filter_sublist.map Prod.fst)
  · rw [List.mem_filter]
    -- under the key that is taken away there is nothing, elsewhere everything stays
    by_cases hk' : k = key
    · subst hk'
      rw [hnone]
      simp
    · rw [hrest k hk hk', h.iff_mem k hk w]
      simp [hk']

/-- Renaming one of the keys to a free one keeps them apart. -/
theorem nodup_rename {keys : List κ} (hnodup : keys.Nodup) (hnew : key ≠ old → key ∉ keys) :
    (keys.map fun k => if k = old then key else k).Nodup := by
  refine hnodup.map_on fun x hx y hy hxy => ?_
  split_ifs at hxy with hxold hyold hyold
  · rw [hxold, hyold]
  · by_cases hne : key = old
    · exact absurd (hxy.symm.trans hne) hyold
    · exact absurd (hxy ▸ hy) (hnew hne)
  · by_cases hne : key = old
    · exact absurd (hxy.trans hne) hxold
    · exact absurd (hxy ▸ hx) (hnew hne)
  · exact hxy

/-- A record that is replaced keeps its place. -/
theorem Holds.replaced (h : Holds IsKey table records)
    (heffect : Effect IsKey table table' (.replaced old key v)) :
    Holds IsKey table' (records.map fun r => if r.1 = old then (key, v) else r) := by
  obtain ⟨⟨hold, hkey⟩, hthere, hset, hmoved, hrest⟩ := heffect
  have hnew : key ≠ old → key ∉ records.map Prod.fst := fun hne => h.free hkey (hmoved hne).1
  refine ⟨?_, ?_, fun k hk w => ?_⟩
  · -- the keys are those of the records, with one renamed
    have hkeys : (records.map fun r => if r.1 = old then (key, v) else r).map Prod.fst =
        (records.map Prod.fst).map fun k => if k = old then key else k := by
      simp only [List.map_map]
      refine List.map_congr_left fun r _ => ?_
      simp only [Function.comp_apply]
      split_ifs <;> rfl
    rw [hkeys]
    exact nodup_rename h.nodup hnew
  · intro r hr
    obtain ⟨r', hr', rfl⟩ := List.mem_map.mp hr
    split_ifs
    · exact hkey
    · exact h.isKey r' hr'
  · rw [List.mem_map]
    by_cases hkkey : k = key
    · subst hkkey
      rw [hset]
      constructor
      · intro hw
        obtain ⟨x, hx⟩ := Option.ne_none_iff_exists'.mp hthere
        exact ⟨(old, x), (h.iff_mem old hold x).mp hx, by rw [if_pos rfl, Option.some.inj hw]⟩
      · rintro ⟨r, hr, hfr⟩
        split_ifs at hfr with hrold
        · rw [(Prod.mk.inj hfr).2]
        · subst hfr
          exact absurd (List.mem_map.mpr ⟨_, hr, rfl⟩) (hnew hrold)
    · by_cases hkold : k = old
      · subst hkold
        rw [(hmoved (Ne.symm hkkey)).2]
        constructor
        · intro hw
          cases hw
        · rintro ⟨r, hr, hfr⟩
          split_ifs at hfr with hrold
          · exact absurd (Prod.mk.inj hfr).1.symm hkkey
          · subst hfr
            exact absurd rfl hrold
      · rw [hrest k hk hkkey hkold, h.iff_mem k hk w]
        constructor
        · intro hmem
          exact ⟨(k, w), hmem, if_neg hkold⟩
        · rintro ⟨r, hr, hfr⟩
          split_ifs at hfr with hrold
          · exact absurd (Prod.mk.inj hfr).1.symm hkkey
          · exact hfr ▸ hr

/-- **Changes.** A table that holds the records, and does with a change what the change says,
holds the records after it. -/
theorem Holds.apply (h : Holds IsKey table records) {c : Change κ α}
    (heffect : Effect IsKey table table' c) : Holds IsKey table' (c.apply records) := by
  cases c with
  | entered key value => exact h.entered heffect
  | replaced old key value => exact h.replaced heffect
  | removed key => exact h.removed heffect

end Holds

end Esif.CS.Records
