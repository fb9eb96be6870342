import StyleEngine.Proofs.Style.LastWriter
import StyleEngine.Proofs.Style.Spelling

/-!
# The youngest spelling

Descriptions are extended spelling by spelling: a later value takes the place where its spelling was written first. In
the compiled block the spellings of one property follow one another, so it is not the last write that stands last, but
the last write to the youngest spelling, the one whose first write comes after those of all others
(`youngest_spelling_wins`). The two differ when an older spelling is written again (`older_spelling_loses`).
-/

namespace StyleEngine

namespace Description

variable {entries : List (String × Value)} {p s : String} {v : Value}

/-- What is written at the root of the descriptions: by description, then by position. -/
def writes (ds : List (Option Description)) : List (String × Value) :=
  (ds.filterMap id).flatMap declarations

/-- The spelling of a property whose first write comes after those of the other spellings. -/
def youngestSpelling? (p : String) (entries : List (String × Value)) : Option String :=
  (Keyed.keys (spelled p entries)).eraseDups.getLast?

/-- The value that is written last under a spelling. -/
def lastWritten? (s : String) (entries : List (String × Value)) : Option Value :=
  ((written entries).filter fun e => e.1 == s).getLast?.map Prod.snd

/-! ## Extending spelling by spelling -/

theorem written_of_truthy (h : ∀ e ∈ entries, e.2.isFalsy = false) : written entries = entries :=
  List.filter_eq_self.mpr fun e he => by rw [h e he]; rfl

theorem declarations_foldl_merge (ds : List Description) (d : Description) :
    (ds.foldl merge d).declarations = Keyed.putAll d.declarations (written (ds.flatMap declarations)) := by
  induction ds generalizing d with
  | nil => rfl
  | cons c rest ih =>
    rw [List.foldl_cons, ih, declarations_merge, List.flatMap_cons, written_append, Keyed.putAll_append]
    rfl

/-- The declarations of a property are stored among themselves. -/
theorem spelled_extend (p : String) (ds : List (Option Description)) :
    spelled p (extend ds).declarations = Keyed.putAll [] (spelled p (writes ds)) := by
  have hdeclarations : (extend ds).declarations = Keyed.putAll [] (written (writes ds)) :=
    declarations_foldl_merge _ _
  have htruthy : ∀ e ∈ (extend ds).declarations, e.2.isFalsy = false := by
    intro e he
    rw [hdeclarations] at he
    exact (mem_written.mp ((Keyed.mem_putAll he).resolve_left List.not_mem_nil)).2
  rw [spelled, written_of_truthy htruthy, hdeclarations]
  exact Keyed.filter_key_putAll fun name => Property.hyphenate name == p

theorem mem_of_youngestSpelling? (h : youngestSpelling? p entries = some s) : ∃ e ∈ spelled p entries, e.1 = s := by
  have hmem := List.mem_eraseDups.mp (List.mem_of_getLast? h)
  exact List.mem_map.mp hmem

/-- The last declaration of a property is the last one of its youngest spelling. -/
theorem getLast?_spelled_extend {ds : List (Option Description)} (hs : youngestSpelling? p (writes ds) = some s)
    (hv : lastWritten? s (writes ds) = some v) : (spelled p (extend ds).declarations).getLast? = some (s, v) := by
  have hspelling : Property.hyphenate s = p := by
    obtain ⟨e, he, rfl⟩ := mem_of_youngestSpelling? hs
    simpa using (List.mem_filter.mp he).2
  have hsame : (spelled p (writes ds)).filter (fun e => e.1 == s) = (written (writes ds)).filter fun e => e.1 == s := by
    rw [spelled, List.filter_filter]
    refine List.filter_congr fun e _ => ?_
    by_cases he : e.1 = s
    · simp [he, hspelling]
    · simp [he]
  have hempty : (Keyed.keys ([] : List (String × Value))).Nodup := List.nodup_nil
  rw [spelled_extend]
  refine Keyed.getLast?_of_keys ?_ (Keyed.nodup_keys_putAll hempty) ?_
  · rw [Keyed.keys_putAll hempty]
    exact hs
  · rw [Keyed.lookup_putAll_last, Keyed.latest?, hsame, show Option.map _ _ = some v from hv]
    rfl

/-! ## The compiled block -/

/-- A normal style is the block of its description, or nests it if the description has a priority. -/
theorem block_of_normalize {d : Description} {debug : Bool} {style : NormalStyle} (h : d.normalize debug = .ok style) :
    ∃ block : NormalStyle, style = raisePriority d.priority block ∧
      renderDeclarations d.declarations = .ok block.declarations := by
  obtain ⟨declarations, nested, unique?, debugName?, priority?⟩ := d
  rw [normalize, normalizeAt, if_neg (by decide)] at h
  split at h
  · cases h
  next ds hds =>
  split at h
  · cases h
  obtain rfl := Except.ok.inj h
  exact ⟨_, rfl, hds⟩

theorem renderDeclarations_append_ok {first second : List (String × Value)} {ds : List Declaration}
    (h : renderDeclarations (first ++ second) = .ok ds) :
    ∃ front back, renderDeclarations first = .ok front ∧ renderDeclarations second = .ok back ∧ ds = front ++ back := by
  induction first generalizing ds with
  | nil => exact ⟨[], ds, rfl, h, rfl⟩
  | cons e rest ih =>
    obtain ⟨own, others, hown, hrest, rfl⟩ := renderDeclarations_cons_ok h
    obtain ⟨front, back, hfront, hback, rfl⟩ := ih hrest
    exact ⟨own ++ front, back, renderDeclarations_of_entry hown hfront, hback, (List.append_assoc ..).symm⟩

/-- A value that is not falsy and not a list makes one declaration. -/
theorem renderDeclarations_single {ds : List Declaration} (h : renderDeclarations [(s, v)] = .ok ds)
    (htruthy : v.isFalsy = false) (hlist : ∀ items, v ≠ .list items) :
    ∃ text, v.css = .ok text ∧ ds = [⟨Property.hyphenate s, text⟩] := by
  obtain ⟨own, others, hown, hnone, rfl⟩ := renderDeclarations_cons_ok h
  obtain rfl := Except.ok.inj hnone
  rw [renderEntry, if_neg (by simp [htruthy]), Value.fallbacks_of_not_list hlist, renderValues] at hown
  split at hown
  · cases hown
  · next text htext =>
    obtain rfl := Except.ok.inj hown
    exact ⟨text, htext, List.append_nil _⟩

/-- The last declaration for a property, in the block of the extended description, has the text of the value that was
written last under the youngest spelling. -/
theorem youngest_spelling_wins {ds : List (Option Description)} {debug : Bool} {style : NormalStyle}
    (hstyle : (extend ds).normalize debug = .ok style) (hs : youngestSpelling? p (writes ds) = some s)
    (hv : lastWritten? s (writes ds) = some v) (hlist : ∀ items, v ≠ .list items) :
    ∃ block text, style = raisePriority (extend ds).priority block ∧ v.css = .ok text ∧
      (Declaration.group p block.declarations).getLast? = some ⟨p, text⟩ := by
  obtain ⟨block, hblock, hrender⟩ := block_of_normalize hstyle
  have hlast := getLast?_spelled_extend hs hv
  obtain ⟨hmem, hspelling⟩ := List.mem_filter.mp (List.mem_of_getLast? hlast)
  obtain ⟨front, hfront⟩ := List.getLast?_eq_some_iff.mp hlast
  have hgroup := renderDeclarations_spelled p hrender
  rw [hfront] at hgroup
  obtain ⟨before, own, -, hown, hdeclared⟩ := renderDeclarations_append_ok hgroup
  obtain ⟨text, htext, rfl⟩ := renderDeclarations_single hown (mem_written.mp hmem).2 hlist
  refine ⟨block, text, hblock, htext, ?_⟩
  rw [hdeclared, List.getLast?_concat, beq_iff_eq.mp hspelling]

/-- A hyphenated spelling that is written first between two writes to the other one. -/
def respelled : List (Option Description) :=
  [some { declarations := [("backgroundColor", .text "red"), ("background-color", .text "blue")] }, none,
    some { declarations := [("backgroundColor", .text "green"), ("background-color", .text "")] }]

def respelledStyle : NormalStyle :=
  { declarations := [⟨"background-color", "green"⟩, ⟨"background-color", "blue"⟩] }

theorem youngest_spelling_wins_respelled :
    (extend respelled).normalize true = .ok respelledStyle ∧
    youngestSpelling? "background-color" (writes respelled) = some "background-color" ∧
    lastWritten? "background-color" (writes respelled) = some (.text "blue") ∧
    ∃ block text, respelledStyle = raisePriority (extend respelled).priority block ∧
      (Value.text "blue").css = .ok text ∧
      (Declaration.group "background-color" block.declarations).getLast? = some ⟨"background-color", text⟩ := by
  have hstyle : (extend respelled).normalize true = .ok respelledStyle := rfl
  have hs : youngestSpelling? "background-color" (writes respelled) = some "background-color" := by decide
  have hv : lastWritten? "background-color" (writes respelled) = some (.text "blue") := rfl
  exact ⟨hstyle, hs, hv, youngest_spelling_wins hstyle hs hv nofun⟩

/-- Green is written last to the property, and blue stands last. -/
theorem older_spelling_loses :
    (spelled "background-color" (writes respelled)).getLast? = some ("backgroundColor", .text "green") ∧
    (extend respelled).normalize true = .ok respelledStyle ∧
    (Declaration.group "background-color" respelledStyle.declarations).getLast? = some ⟨"background-color", "blue"⟩ ∧
    (Value.text "green").css ≠ .ok "blue" :=
  ⟨rfl, rfl, by decide, nofun⟩

end Description

end StyleEngine
