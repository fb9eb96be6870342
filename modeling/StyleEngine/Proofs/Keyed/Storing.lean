import Mathlib.Data.List.Induction
import StyleEngine.Keyed

/-!
# Storing and reading

What is read from a keyed list after pairs were stored in it, and in which order its keys stand. With distinct keys a
pair takes the place of the one entry under its key or goes last (`stored_put`), and of all values that are stored
under a key the last is read (`lookup_putAll_last`). Storing pairs one after the other is a fold, but the pairs can be
put together first: storing all of one list and then all of another is storing the second in the first and the result
(`putAll_putAll`).
-/

namespace StyleEngine.Keyed

variable {α β : Type} {key k l : String} {value v w : α} {entries added es : List (String × α)}
  {e : String × α}

/-! ## Reading -/

theorem mem_put (h : e ∈ put key value entries) : e = (key, value) ∨ e ∈ entries := by
  induction entries with
  | nil => exact .inl (List.mem_singleton.mp h)
  | cons first rest ih =>
    obtain ⟨k, v⟩ := first
    rw [put] at h
    split at h
    · next hk =>
      rcases List.mem_cons.mp h with rfl | h
      · exact .inl (hk ▸ rfl)
      · exact .inr (List.mem_cons_of_mem _ h)
    · rcases List.mem_cons.mp h with rfl | h
      · exact .inr List.mem_cons_self
      · exact (ih h).imp_right (List.mem_cons_of_mem _)

theorem lookup_cons_ne (h : key ≠ k) (v : α) (rest : List (String × α)) :
    ((k, v) :: rest).lookup key = rest.lookup key := by
  have hk : (key == k) = false := by simpa using h
  rw [List.lookup_cons, hk]

theorem mem_of_lookup (h : entries.lookup key = some value) : (key, value) ∈ entries := by
  obtain ⟨front, back, rfl, -⟩ := List.lookup_eq_some_iff.mp h
  exact List.mem_append_right _ List.mem_cons_self

theorem lookup_of_mem (hnodup : (keys entries).Nodup) (h : (key, value) ∈ entries) :
    entries.lookup key = some value := by
  obtain ⟨front, back, rfl⟩ := List.append_of_mem h
  refine List.lookup_eq_some_iff.mpr ⟨front, back, rfl, fun e he => ?_⟩
  rw [keys, List.map_append, List.map_cons] at hnodup
  have hne := (List.nodup_append.mp hnodup).2.2 e.1 (List.mem_map_of_mem he) key List.mem_cons_self
  simpa using hne.symm

theorem lookup_eq_none_iff : entries.lookup key = none ↔ key ∉ keys entries := by
  rw [List.lookup_eq_none_iff, keys, List.mem_map]
  constructor
  · rintro h ⟨e, he, rfl⟩
    exact absurd (h e he) (by simp)
  · intro h e he
    simpa using fun hk => h ⟨e, he, hk.symm⟩

/-- A key that is read is read after whatever else has the same keys. -/
theorem exists_lookup_of_keys_eq {others : List (String × β)} (hkeys : keys entries = keys others)
    (h : entries.lookup key = some value) : ∃ other, others.lookup key = some other := by
  refine Option.ne_none_iff_exists'.mp fun hnone => ?_
  rw [lookup_eq_none_iff, ← hkeys, ← lookup_eq_none_iff, h] at hnone
  cases hnone

/-- With distinct keys, what is read and in which order tells the list. -/
theorem eq_of_lookup_eq (hnodup : (keys entries).Nodup) (hkeys : keys entries = keys es)
    (h : ∀ key, entries.lookup key = es.lookup key) : entries = es := by
  induction entries generalizing es with
  | nil =>
    cases es with
    | nil => rfl
    | cons e es => cases hkeys
  | cons first rest ih =>
    obtain ⟨k, v⟩ := first
    cases es with
    | nil => cases hkeys
    | cons e es =>
      obtain ⟨k', w⟩ := e
      rw [keys_cons, keys_cons] at hkeys
      obtain ⟨rfl, hrest⟩ := List.cons.inj hkeys
      obtain ⟨hk, hnodup⟩ := List.nodup_cons.mp hnodup
      have hhead := h k
      rw [List.lookup_cons_self, List.lookup_cons_self] at hhead
      obtain rfl := Option.some.inj hhead
      have htail : rest = es := by
        refine ih hnodup hrest fun key => ?_
        by_cases hkey : key = k
        · subst hkey
          rw [lookup_eq_none_iff.mpr hk, lookup_eq_none_iff.mpr (hrest ▸ hk)]
        · have htail := h key
          rwa [lookup_cons_ne hkey, lookup_cons_ne hkey] at htail
      rw [htail]

/-- What is stored last under a key is read, and else what was there before. -/
theorem lookup_putAll (hnodup : (keys added).Nodup) :
    (putAll entries added).lookup key = (added.lookup key).or (entries.lookup key) := by
  induction added generalizing entries with
  | nil => rfl
  | cons first rest ih =>
    obtain ⟨k, v⟩ := first
    obtain ⟨hk, hnodup⟩ := List.nodup_cons.mp hnodup
    show (putAll (put k v entries) rest).lookup key = _
    rw [ih hnodup]
    by_cases hkey : key = k
    · subst hkey
      rw [lookup_eq_none_iff.mpr hk, lookup_put_self, List.lookup_cons_self]
      rfl
    · rw [lookup_put_ne hkey, lookup_cons_ne hkey]

theorem mem_putAll {e : String × α} (h : e ∈ putAll entries added) : e ∈ entries ∨ e ∈ added := by
  induction added generalizing entries with
  | nil => exact .inl h
  | cons first rest ih =>
    rcases ih h with hput | hrest
    · rcases mem_put hput with rfl | hentries
      · exact .inr List.mem_cons_self
      · exact .inl hentries
    · exact .inr (List.mem_cons_of_mem _ hrest)

/-- The value that comes last under a key. -/
def latest? (key : String) (added : List (String × α)) : Option α :=
  (added.filter fun e => e.1 == key).getLast?.map Prod.snd

/-- Whatever is stored, the last value under a key is read. -/
theorem lookup_putAll_last :
    (putAll entries added).lookup key = (latest? key added).or (entries.lookup key) := by
  induction added generalizing entries with
  | nil => rfl
  | cons first rest ih =>
    obtain ⟨k, v⟩ := first
    show (putAll (put k v entries) rest).lookup key = _
    rw [ih, latest?, latest?, List.filter_cons]
    by_cases hk : k = key
    · subst hk
      rw [if_pos (by simp), lookup_put_self, List.getLast?_cons]
      cases (rest.filter fun e => e.1 == k).getLast? <;> rfl
    · rw [if_neg (by simpa using hk), lookup_put_ne (Ne.symm hk)]

/-- The last of keyed entries, from the last key and what is read under it. -/
theorem getLast?_of_keys (hkey : (keys entries).getLast? = some key) (hnodup : (keys entries).Nodup)
    (hvalue : entries.lookup key = some value) : entries.getLast? = some (key, value) := by
  obtain ⟨⟨k, v⟩, hlast, rfl⟩ := Option.map_eq_some_iff.mp (List.getLast?_map.symm.trans hkey)
  have hread := lookup_of_mem hnodup (List.mem_of_getLast? hlast)
  rw [hlast, Option.some.inj (hread.symm.trans hvalue)]

theorem keys_filter_sublist (p : String × α → Bool) (entries : List (String × α)) :
    (keys (entries.filter p)).Sublist (keys entries) :=
  List.filter_sublist.map _

theorem lookup_filter (p : α → Bool) (hnodup : (keys entries).Nodup) :
    (entries.filter fun e => p e.2).lookup key = (entries.lookup key).filter p := by
  induction entries with
  | nil => rfl
  | cons first rest ih =>
    obtain ⟨k, v⟩ := first
    obtain ⟨hk, hnodup⟩ := List.nodup_cons.mp hnodup
    by_cases hkey : key = k
    · subst hkey
      have hrest : (rest.filter fun e => p e.2).lookup key = none :=
        lookup_eq_none_iff.mpr fun h => hk ((keys_filter_sublist _ rest).subset h)
      rw [List.lookup_cons_self, List.filter_cons, Option.filter_some]
      split
      · exact List.lookup_cons_self
      · exact hrest
    · rw [lookup_cons_ne hkey, List.filter_cons]
      split
      · rw [lookup_cons_ne hkey]
        exact ih hnodup
      · exact ih hnodup

@[simp] theorem keys_map (f : String × α → β) (entries : List (String × α)) :
    keys (entries.map fun e => (e.1, f e)) = keys entries := by
  simp [keys, Function.comp_def]

theorem lookup_map (f : String × α → β) (key : String) (entries : List (String × α)) :
    (entries.map fun e => (e.1, f e)).lookup key = (entries.lookup key).map fun v => f (key, v) := by
  induction entries with
  | nil => rfl
  | cons first rest ih =>
    obtain ⟨k, v⟩ := first
    rw [List.map_cons]
    by_cases hkey : key = k
    · subst hkey
      rw [List.lookup_cons_self, List.lookup_cons_self]
      rfl
    · rw [lookup_cons_ne hkey, lookup_cons_ne hkey]
      exact ih

/-! ## Order -/

theorem put_of_notMem (h : key ∉ keys entries) (value : α) : put key value entries = entries ++ [(key, value)] := by
  induction entries with
  | nil => rfl
  | cons first rest ih =>
    obtain ⟨k, v⟩ := first
    obtain ⟨hk, hrest⟩ : key ≠ k ∧ key ∉ keys rest := by simpa using h
    rw [put, if_neg (Ne.symm hk), ih hrest]
    rfl

/-- A value takes the place of the one entry under its key, or goes last if there is none. -/
inductive Stored (key : String) (value : α) : List (String × α) → List (String × α) → Prop where
  | replaced {front back : List (String × α)} (former : α) (hfront : key ∉ keys front) (hback : key ∉ keys back) :
      Stored key value (front ++ (key, former) :: back) (front ++ (key, value) :: back)
  | appended {entries : List (String × α)} (h : key ∉ keys entries) :
      Stored key value entries (entries ++ [(key, value)])

theorem put_append_of_notMem {front : List (String × α)} (h : key ∉ keys front) (value : α)
    (rest : List (String × α)) : put key value (front ++ rest) = front ++ put key value rest := by
  induction front with
  | nil => rfl
  | cons first front ih =>
    obtain ⟨k, v⟩ := first
    obtain ⟨hk, hfront⟩ : key ≠ k ∧ key ∉ keys front := by simpa using h
    rw [List.cons_append, put, if_neg (Ne.symm hk), ih hfront]
    rfl

theorem stored_put (h : (keys entries).Nodup) (key : String) (value : α) :
    Stored key value entries (put key value entries) := by
  by_cases hmem : key ∈ keys entries
  · obtain ⟨⟨k, former⟩, hentry, rfl⟩ := List.mem_map.mp hmem
    obtain ⟨front, back, rfl⟩ := List.append_of_mem hentry
    rw [keys, List.map_append, List.map_cons] at h
    obtain ⟨-, hback, hapart⟩ := List.nodup_append.mp h
    have hfront : k ∉ keys front := fun hk => hapart k hk k List.mem_cons_self rfl
    rw [put_append_of_notMem hfront, put, if_pos rfl]
    exact .replaced former hfront (List.nodup_cons.mp hback).1
  · rw [put_of_notMem hmem]
    exact .appended hmem

theorem putAll_append (entries first second : List (String × α)) :
    putAll entries (first ++ second) = putAll (putAll entries first) second :=
  List.foldl_append

theorem nodup_keys_putAll (h : (keys entries).Nodup) : (keys (putAll entries added)).Nodup := by
  induction added generalizing entries with
  | nil => exact h
  | cons e rest ih => exact ih (nodup_keys_put h)

/-- Where keys stand does not depend on the values. -/
theorem keys_putAll_congr {entries' added' : List (String × β)} (hentries : keys entries = keys entries')
    (hadded : keys added = keys added') : keys (putAll entries added) = keys (putAll entries' added') := by
  induction added generalizing entries entries' added' with
  | nil =>
    cases added' with
    | nil => exact hentries
    | cons e' rest' => cases hadded
  | cons e rest ih =>
    cases added' with
    | nil => cases hadded
    | cons e' rest' =>
      rw [keys_cons, keys_cons] at hadded
      obtain ⟨hkey, hrest⟩ := List.cons.inj hadded
      have hput : keys (put e.1 e.2 entries) = keys (put e'.1 e'.2 entries') := by
        rw [keys_put, keys_put, hentries, hkey]
      show keys (putAll (put e.1 e.2 entries) rest) = keys (putAll (put e'.1 e'.2 entries') rest')
      exact ih hput hrest

theorem put_put_self (key : String) (v w : α) (entries : List (String × α)) :
    put key w (put key v entries) = put key w entries := by
  induction entries with
  | nil => exact if_pos rfl
  | cons first rest ih =>
    obtain ⟨k, u⟩ := first
    by_cases hk : k = key
    · rw [put, if_pos hk, put, if_pos hk, put, if_pos hk]
    · rw [put, if_neg hk, put, if_neg hk, put, if_neg hk, ih]

/-- A key that has a place can be stored earlier or later. -/
theorem put_comm (hne : k ≠ l) (hmem : k ∈ keys entries) (v w : α) :
    put k v (put l w entries) = put l w (put k v entries) := by
  induction entries with
  | nil => exact absurd hmem List.not_mem_nil
  | cons first rest ih =>
    obtain ⟨m, u⟩ := first
    by_cases hk : m = k
    · subst hk
      rw [put, if_neg hne, put, if_pos rfl, put, if_pos rfl, put, if_neg hne]
    · have hrest : k ∈ keys rest := (List.mem_cons.mp hmem).resolve_left (Ne.symm hk)
      by_cases hl : m = l
      · subst hl
        rw [put, if_pos rfl, put, if_neg hk, put, if_neg hk, put, if_pos rfl]
      · rw [put, if_neg hl, put, if_neg hk, put, if_neg hk, put, if_neg hl, ih hrest]

theorem putAll_put_comm (hkey : key ∉ keys added) (hmem : key ∈ keys entries) (value : α) :
    put key value (putAll entries added) = putAll (put key value entries) added := by
  induction added generalizing entries with
  | nil => rfl
  | cons first rest ih =>
    obtain ⟨k, v⟩ := first
    obtain ⟨hk, hrest⟩ : key ≠ k ∧ key ∉ keys rest := by simpa using hkey
    show put key value (putAll (put k v entries) rest) = putAll (put k v (put key value entries)) rest
    have hplace : key ∈ keys (put k v entries) := by
      rw [keys_put]
      split
      · exact hmem
      · exact List.mem_append_left _ hmem
    rw [ih hrest hplace, put_comm hk hmem]

/-- The last pair can be stored in what is stored. -/
theorem putAll_put (hnodup : (keys added).Nodup) (key : String) (value : α) :
    putAll entries (put key value added) = put key value (putAll entries added) := by
  induction added generalizing entries with
  | nil => rfl
  | cons first rest ih =>
    obtain ⟨k, v⟩ := first
    obtain ⟨hk, hnodup⟩ := List.nodup_cons.mp hnodup
    rw [put]
    split
    · next he =>
      subst he
      show putAll (put k value entries) rest = put k value (putAll (put k v entries) rest)
      have hplace : k ∈ keys (put k v entries) := by
        rw [keys_put]
        split
        · assumption
        · exact List.mem_append_right _ List.mem_cons_self
      rw [putAll_put_comm hk hplace, put_put_self]
    · exact ih hnodup

theorem putAll_putAll {more : List (String × α)} (hnodup : (keys added).Nodup) :
    putAll entries (putAll added more) = putAll (putAll entries added) more := by
  induction more generalizing added with
  | nil => rfl
  | cons e rest ih =>
    show putAll entries (putAll (put e.1 e.2 added) rest) = putAll (put e.1 e.2 (putAll entries added)) rest
    rw [ih (nodup_keys_put hnodup), putAll_put hnodup]

/-! ## First occurrences -/

section

variable {α : Type} [BEq α] [LawfulBEq α]

theorem eraseDups_of_nodup {l : List α} (h : l.Nodup) : l.eraseDups = l := by
  induction l with
  | nil => rfl
  | cons a rest ih =>
    obtain ⟨ha, hrest⟩ := List.nodup_cons.mp h
    have hfilter : rest.filter (fun b => !b == a) = rest := by
      refine List.filter_eq_self.mpr fun b hb => ?_
      have hne : b ≠ a := fun he => ha (he ▸ hb)
      simpa using hne
    rw [List.eraseDups_cons, hfilter, ih hrest]

theorem eraseDups_concat (l : List α) (a : α) :
    (l ++ [a]).eraseDups = if a ∈ l then l.eraseDups else l.eraseDups ++ [a] := by
  rw [List.eraseDups_append]
  split
  · next ha => simp [List.removeAll, ha]
  · next ha => simp [List.removeAll, ha, List.eraseDups_cons]

theorem nodup_eraseDups (l : List α) : l.eraseDups.Nodup := by
  induction l using List.reverseRecOn with
  | nil => exact List.nodup_nil
  | append_singleton l a ih =>
    rw [eraseDups_concat]
    split
    · exact ih
    · next ha =>
      refine List.nodup_append.mpr ⟨ih, by simp, fun b hb c hc => ?_⟩
      rintro rfl
      exact ha (List.mem_singleton.mp hc ▸ List.mem_eraseDups.mp hb)

/-- What is dropped depends on which elements stand in front, and not on how often they do. -/
theorem eraseDups_eraseDups_append (l rest : List α) : (l.eraseDups ++ rest).eraseDups = (l ++ rest).eraseDups := by
  have hremove : rest.removeAll l.eraseDups = rest.removeAll l := by
    refine List.filter_congr fun a _ => ?_
    simp [List.mem_eraseDups]
  rw [List.eraseDups_append, List.eraseDups_append, eraseDups_of_nodup (nodup_eraseDups l), hremove]

end

/-- The keys of what is stored come behind those that are there, each where it is met first. -/
theorem keys_putAll (h : (keys entries).Nodup) :
    keys (putAll entries added) = (keys entries ++ keys added).eraseDups := by
  induction added generalizing entries with
  | nil => rw [keys_nil, List.append_nil, eraseDups_of_nodup h]; rfl
  | cons first rest ih =>
    obtain ⟨k, v⟩ := first
    have hput : keys (put k v entries) = (keys entries ++ [k]).eraseDups := by
      rw [keys_put, eraseDups_concat, eraseDups_of_nodup h]
    calc
      keys (putAll entries ((k, v) :: rest)) = (keys (put k v entries) ++ keys rest).eraseDups :=
        ih (nodup_keys_put h)
      _ = ((keys entries ++ [k]) ++ keys rest).eraseDups :=
        hput ▸ eraseDups_eraseDups_append _ _
      _ = (keys entries ++ keys ((k, v) :: rest)).eraseDups := by rw [List.append_assoc]; rfl

/-! ## Filtering -/

variable {p : String × α → Bool}

theorem filter_put (hvalue : p (key, value) = true) (hentries : ∀ v, (key, v) ∈ entries → p (key, v) = true) :
    (put key value entries).filter p = put key value (entries.filter p) := by
  induction entries with
  | nil => exact List.filter_cons_of_pos hvalue
  | cons first rest ih =>
    obtain ⟨k, v⟩ := first
    have ih := ih fun v hv => hentries v (List.mem_cons_of_mem _ hv)
    rw [put]
    by_cases hk : k = key
    · subst hk
      rw [if_pos rfl, List.filter_cons_of_pos hvalue, List.filter_cons_of_pos (hentries v List.mem_cons_self), put,
        if_pos rfl]
    · rw [if_neg hk, List.filter_cons, List.filter_cons]
      split
      · rw [put, if_neg hk, ih]
      · exact ih

/-- A filter is applied before storing when nothing that it drops is stored again. -/
theorem filter_putAll (hadded : ∀ e ∈ added, p e = true)
    (hentries : ∀ e ∈ added, ∀ v, (e.1, v) ∈ entries → p (e.1, v) = true) :
    (putAll entries added).filter p = putAll (entries.filter p) added := by
  induction added generalizing entries with
  | nil => rfl
  | cons first rest ih =>
    obtain ⟨k, v⟩ := first
    have hv : p (k, v) = true := hadded _ List.mem_cons_self
    have hrest : ∀ e ∈ rest, ∀ u, (e.1, u) ∈ put k v entries → p (e.1, u) = true := by
      intro e he u hu
      rcases mem_put hu with heq | hu
      · rwa [heq]
      · exact hentries e (List.mem_cons_of_mem _ he) u hu
    show (putAll (put k v entries) rest).filter p = putAll (put k v (entries.filter p)) rest
    rw [ih (fun e he => hadded e (List.mem_cons_of_mem _ he)) hrest,
      filter_put hv fun u hu => hentries _ List.mem_cons_self u hu]

/-- The keys that a test picks out are stored among themselves. -/
theorem filter_key_put (q : String → Bool) (key : String) (value : α) (entries : List (String × α)) :
    (put key value entries).filter (fun e => q e.1) =
      if q key then put key value (entries.filter fun e => q e.1) else entries.filter fun e => q e.1 := by
  induction entries with
  | nil => cases hq : q key <;> simp [put, hq]
  | cons first rest ih =>
    obtain ⟨k, v⟩ := first
    rw [put]
    by_cases hk : k = key
    · subst hk
      cases hq : q k <;> simp [put, hq]
    · cases hq : q k <;> cases hkey : q key <;> simp [put, hk, hq, ih, hkey]

theorem filter_key_putAll (q : String → Bool) :
    (putAll entries added).filter (fun e => q e.1) =
      putAll (entries.filter fun e => q e.1) (added.filter fun e => q e.1) := by
  induction added generalizing entries with
  | nil => rfl
  | cons first rest ih =>
    show (putAll (put first.1 first.2 entries) rest).filter _ = _
    rw [ih, filter_key_put, List.filter_cons]
    split <;> rfl

end StyleEngine.Keyed
