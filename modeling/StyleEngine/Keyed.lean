/-!
# Keyed lists

Lists of key and value that keep the order in which keys were first written. Storing under a key
that is present replaces the value in place, storing under a new key appends. Reading is
`List.lookup`.
-/

namespace StyleEngine.Keyed

variable {α : Type}

/-- Stores `value` under `key`. -/
def put (key : String) (value : α) : List (String × α) → List (String × α)
  | [] => [(key, value)]
  | (k, v) :: rest => if k = key then (k, value) :: rest else (k, v) :: put key value rest

/-- Stores the pairs one after the other. -/
def putAll (entries added : List (String × α)) : List (String × α) :=
  added.foldl (fun es e => put e.1 e.2 es) entries

def keys (entries : List (String × α)) : List String := entries.map Prod.fst

@[simp] theorem keys_nil : keys ([] : List (String × α)) = [] := rfl
@[simp] theorem keys_cons (e : String × α) (es : List (String × α)) : keys (e :: es) = e.1 :: keys es := rfl

/-- Keys stay where they are; a new one goes last. -/
theorem keys_put (key : String) (value : α) (entries : List (String × α)) :
    keys (put key value entries) = if key ∈ keys entries then keys entries else keys entries ++ [key] := by
  induction entries with
  | nil => simp [put]
  | cons e rest ih =>
    obtain ⟨k, v⟩ := e
    rw [put]
    by_cases h : k = key
    · subst h; simp
    · have hk : key ≠ k := fun e => h e.symm
      rw [if_neg h, keys_cons, ih]
      by_cases hm : key ∈ keys rest <;> simp [hm, hk]

theorem nodup_keys_put {key : String} {value : α} {entries : List (String × α)}
    (h : (keys entries).Nodup) : (keys (put key value entries)).Nodup := by
  rw [keys_put]
  split
  · exact h
  · next hk =>
    refine List.nodup_append.mpr ⟨h, by simp, fun a ha b hb => ?_⟩
    rw [List.mem_singleton.mp hb]
    exact fun e => hk (e ▸ ha)

/-- The last value stored is the one that is read. -/
theorem lookup_put_self (key : String) (value : α) (entries : List (String × α)) :
    (put key value entries).lookup key = some value := by
  induction entries with
  | nil => simp [put]
  | cons e rest ih =>
    obtain ⟨k, v⟩ := e
    rw [put]
    split
    · next h => subst h; simp
    · next h =>
      have hk : (key == k) = false := by simpa using fun e => h e.symm
      simp [List.lookup_cons, hk, ih]

theorem lookup_put_ne {key other : String} (h : other ≠ key) (value : α) (entries : List (String × α)) :
    (put key value entries).lookup other = entries.lookup other := by
  induction entries with
  | nil =>
    have hk : (other == key) = false := by simpa using h
    simp [put, List.lookup_cons, hk]
  | cons e rest ih =>
    obtain ⟨k, v⟩ := e
    rw [put]
    split
    · next hk =>
      subst hk
      have hk : (other == k) = false := by simpa using h
      simp [List.lookup_cons, hk]
    · simp only [List.lookup_cons, ih]

end StyleEngine.Keyed
