import Mathlib.Data.List.Basic
import StyleEngine.Proofs.Declaration.Group
import StyleEngine.Proofs.Keyed.Storing
import StyleEngine.Proofs.RuleSet.Content
import StyleEngine.RuleTable

/-!
# Sound tables

The index of a table is in step with the entries when its texts point to different positions, each of them the
position of an entry of the kind that the text begins with (`RuleTable.InStep`). A table is sound when it is in
step and its entries are filled, with the tables inside them (`Entry.Sound`). A push keeps this as long as the key
fits the entry, and so does a change at a position that the index knows. Everything else is made of these two, so
every operation on a sound table comes to a sound table (`RuleTable.Grows`), and no entry but a face is left
without a key.
-/

namespace StyleEngine

/-- Whether what comes under the key is merged into the style entry that the key points to. -/
def RuleKey.Merges : RuleKey → Prop
  | .shared _ | .unique _ _ | .literal _ => True
  | .owned _ _ | .atRule _ _ | .keyframes _ => False

/-- The letters that the key of an entry may begin with. -/
def Entry.letters : Entry → List Char
  | style _ _ _ => ['s', 'u', 'c', 'r']
  | block _ _ => ['b']
  | keyframes _ _ => ['k']

namespace RuleTable

variable {t : RuleTable} {entry fresh : Entry} {key : RuleKey} {key? : Option RuleKey}
  {change : Entry → Entry × Bool} {text : String} {i : Nat}

/-- The index is a map. No position is pointed to twice, none is beyond the entries, and the entry there is of the
kind that the text begins with. -/
structure InStep (t : RuleTable) : Prop where
  nodup : (Keyed.keys t.index).Nodup
  injective : ∀ {text text' i}, t.index.lookup text = some i → t.index.lookup text' = some i → text = text'
  kind : ∀ {text i}, t.index.lookup text = some i →
    ∃ entry c, t.entries[i]? = some entry ∧ text.toList.head? = some c ∧ c ∈ entry.letters

/-- Whether some key points to the position. -/
def pointsTo (t : RuleTable) (i : Nat) : Bool := t.index.any fun entry => entry.2 == i

/-- The entries that no key points to, in order. -/
def loose (t : RuleTable) : List Entry :=
  (List.range t.entries.length).filterMap fun i => if t.pointsTo i then none else t.entries[i]?

/-! ## The index -/

theorem pointsTo_of_lookup (h : t.index.lookup text = some i) : t.pointsTo i = true :=
  List.any_eq_true.mpr ⟨_, Keyed.mem_of_lookup h, beq_self_eq_true i⟩

theorem lookup_push_some (t : RuleTable) (key : RuleKey) (entry : Entry) (text : String) :
    (t.push (some key) entry).index.lookup text =
      if text = key.text then some t.entries.length else t.index.lookup text := by
  split
  · next h => rw [h]; exact Keyed.lookup_put_self ..
  · next h => exact Keyed.lookup_put_ne h ..

namespace InStep

theorem empty : InStep {} where
  nodup := List.nodup_nil
  injective h := nomatch h
  kind h := nomatch h

theorem lt (h : t.InStep) (hi : t.index.lookup text = some i) : i < t.entries.length := by
  obtain ⟨entry, c, hentry, -⟩ := h.kind hi
  exact (List.getElem?_eq_some_iff.mp hentry).1

theorem lt_of_pointsTo (h : t.InStep) (hi : t.pointsTo i = true) : i < t.entries.length := by
  obtain ⟨⟨text, j⟩, hmem, hj⟩ := List.any_eq_true.mp hi
  obtain rfl : j = i := eq_of_beq hj
  exact h.lt (Keyed.lookup_of_mem h.nodup hmem)

/-- What stands in the index still does after a push, and the end is a position that nothing points to. -/
theorem push (h : t.InStep) (hkey : ∀ key, key? = some key → key.letter ∈ entry.letters) :
    (t.push key? entry).InStep := by
  have hkept : ∀ {text i}, t.index.lookup text = some i →
      ∃ e c, (t.entries ++ [entry])[i]? = some e ∧ text.toList.head? = some c ∧ c ∈ e.letters := by
    intro text i hi
    obtain ⟨e, c, he, hc⟩ := h.kind hi
    exact ⟨e, c, by rw [List.getElem?_append_left (h.lt hi), he], hc⟩
  cases key? with
  | none => exact ⟨h.nodup, h.injective, hkept⟩
  | some key =>
    refine ⟨Keyed.nodup_keys_put h.nodup, fun {text text' i} hi hi' => ?_, fun {text i} hi => ?_⟩
    · rw [lookup_push_some] at hi hi'
      split at hi <;> split at hi'
      · next ht ht' => rw [ht, ht']
      · exact absurd (h.lt hi') (by rw [← Option.some.inj hi]; exact Nat.lt_irrefl _)
      · exact absurd (h.lt hi) (by rw [← Option.some.inj hi']; exact Nat.lt_irrefl _)
      · exact h.injective hi hi'
    · rw [lookup_push_some] at hi
      split at hi
      · next ht =>
        subst ht
        obtain rfl := Option.some.inj hi
        exact ⟨entry, key.letter, List.getElem?_concat_length, key.head_text, hkey key rfl⟩
      · exact hkept hi

/-- An entry may change as long as it stays of its kind. -/
theorem set {entry' : Entry} (h : t.InStep) (hi : t.entries[i]? = some entry) (hl : entry'.letters = entry.letters) :
    InStep { t with entries := t.entries.set i entry' } where
  nodup := h.nodup
  injective := h.injective
  kind := by
    intro text j hj
    obtain ⟨e, c, he, hc, hkind⟩ := h.kind hj
    by_cases hij : i = j
    · subst hij
      obtain rfl : entry = e := Option.some.inj (hi.symm.trans he)
      exact ⟨entry', c, List.getElem?_set_self (h.lt hj), hc, hl ▸ hkind⟩
    · exact ⟨e, c, by rw [List.getElem?_set_ne hij, he], hc, hkind⟩

/-- A key under which entries are merged points to a style entry. -/
theorem style_of_merges (h : t.InStep) (hk : key.Merges) (hi : t.position? key = some i) :
    ∃ selectors declarations unique, t.entries[i]? = some (.style selectors declarations unique) := by
  obtain ⟨entry, c, hentry, hc, hkind⟩ := h.kind hi
  obtain rfl : key.letter = c := Option.some.inj (key.head_text.symm.trans hc)
  cases entry with
  | style selectors declarations unique => exact ⟨selectors, declarations, unique, hentry⟩
  | block | keyframes =>
    cases key with
    | shared | unique | literal => simp [Entry.letters, RuleKey.letter] at hkind
    | owned | atRule | keyframes => exact absurd hk id

/-! ## Loose entries -/

/-- A push without a key is the one way to come by a loose entry. -/
theorem loose_push (h : t.InStep) (key? : Option RuleKey) (entry : Entry)
    (hnew : ∀ key, key? = some key → t.position? key = none) :
    (t.push key? entry).loose = t.loose ++ if key?.isNone then [entry] else [] := by
  have hends : t.pointsTo t.entries.length = false := by
    rw [← Bool.not_eq_true]
    exact fun hlast => Nat.lt_irrefl _ (h.lt_of_pointsTo hlast)
  have hpoints : ∀ j, (t.push key? entry).pointsTo j = (t.pointsTo j || (key?.isSome && t.entries.length == j)) := by
    intro j
    cases key? with
    | none => simp [pointsTo, RuleTable.push]
    | some key =>
      have habsent : key.text ∉ Keyed.keys t.index := Keyed.lookup_eq_none_iff.mp (hnew key rfl)
      simp [pointsTo, RuleTable.push, Keyed.put_of_notMem habsent]
  have hbefore : ∀ j ∈ List.range t.entries.length,
      (if (t.push key? entry).pointsTo j then none else (t.push key? entry).entries[j]?) =
        if t.pointsTo j then none else t.entries[j]? := by
    intro j hj
    have hlt : j < t.entries.length := List.mem_range.mp hj
    have hne : (t.entries.length == j) = false := by simpa using Nat.ne_of_gt hlt
    rw [hpoints, hne, Bool.and_false, Bool.or_false]
    exact congrArg (if t.pointsTo j then none else ·) (List.getElem?_append_left hlt)
  have hlength : (t.push key? entry).entries.length = t.entries.length + 1 := List.length_append
  have hlast : (t.push key? entry).entries[t.entries.length]? = some entry := List.getElem?_concat_length
  rw [loose, hlength, List.range_succ, List.filterMap_append, List.filterMap_congr hbefore]
  refine congrArg (t.loose ++ ·) ?_
  rw [List.filterMap_cons, hpoints, hends, hlast]
  cases key? <;> simp

end InStep

/-- What a key points to may change. -/
theorem loose_set (hi : t.pointsTo i = true) (entry : Entry) :
    loose { t with entries := t.entries.set i entry } = t.loose := by
  rw [loose, loose, List.length_set]
  refine List.filterMap_congr fun j _ => ?_
  show (if t.pointsTo j then none else (t.entries.set i entry)[j]?) = _
  by_cases hij : i = j
  · subst hij
    rw [if_pos hi, if_pos hi]
  · rw [List.getElem?_set_ne hij]

end RuleTable

/-! ## Filled entries -/

/-- An entry lists something, its declarations are sorted and its selectors distinct. The body of a block is a
table of such entries that is in step, every entry of it under a key. -/
inductive Entry.Sound : Entry → Prop
  | style {selectors : List String} {declarations : List Declaration} {unique : Bool}
      (hne : selectors ≠ []) (hs : selectors.Nodup) (hdne : declarations ≠ [])
      (hd : Declaration.Sorted declarations) : Sound (.style selectors declarations unique)
  | block {rule : String} {body : RuleTable} (hne : body.entries ≠ []) (hi : body.InStep)
      (hb : ∀ entry ∈ body.entries, Sound entry) (hl : body.loose = []) : Sound (.block rule body)
  | keyframes {name : String} {frames : List (String × List Declaration)} (hne : frames ≠ [])
      (hf : ∀ frame ∈ frames, frame.2 ≠ [] ∧ Declaration.Sorted frame.2) : Sound (.keyframes name frames)

namespace Entry

variable {added : List String} {new : List Declaration}

/-- A change that keeps entries sound and of their kind. -/
def Sane (change : Entry → Entry × Bool) : Prop :=
  ∀ entry : Entry, entry.Sound → (change entry).1.Sound ∧ (change entry).1.letters = entry.letters

theorem sane_addSelectors (added : List String) : Sane (addSelectors added) := by
  intro entry h
  cases h with
  | @style selectors declarations unique hne hs hdne hd =>
    obtain ⟨extra, he, -⟩ := Rule.addSelectors_eq_append selectors added
    have hmore : (Rule.addSelectors selectors added).1 ≠ [] := by rw [he]; simp [hne]
    exact ⟨.style hmore (Rule.nodup_addSelectors hs) hdne hd, rfl⟩
  | block hne hi hb hl => exact ⟨.block hne hi hb hl, rfl⟩
  | keyframes hne hf => exact ⟨.keyframes hne hf, rfl⟩

theorem sane_mergeDeclarations (hne : new ≠ []) : Sane (mergeDeclarations new) := by
  intro entry h
  cases h with
  | @style selectors declarations unique hsne hs hdne hd =>
    have hsome : Declaration.replace declarations new ≠ [] := Declaration.sort_ne_nil (by simp [hne])
    exact ⟨.style hsne hs hsome (Declaration.sorted_replace declarations new), rfl⟩
  | block hne hi hb hl => exact ⟨.block hne hi hb hl, rfl⟩
  | keyframes hne hf => exact ⟨.keyframes hne hf, rfl⟩

/-- A new entry for a flat rule. -/
theorem sound_single (selector : String) {declarations : List Declaration} (hne : declarations ≠ []) (unique : Bool) :
    Sound (.style [selector] (Declaration.sort declarations) unique) :=
  .style (by simp) (by simp) (Declaration.sort_ne_nil hne) (Declaration.sorted_sort declarations)

end Entry

namespace RuleTable

variable {t body : RuleTable} {entry fresh : Entry} {key : RuleKey} {change : Entry → Entry × Bool} {i : Nat}
  {declarations : List Declaration} {frames : List (String × List Declaration)} {sharing : Sharing}

/-- The index can be relied on and every entry is filled. -/
structure Sound (t : RuleTable) : Prop where
  inStep : t.InStep
  filled : ∀ entry ∈ t.entries, entry.Sound

/-- What an operation makes of a table: one that is sound and has no other loose entries. -/
structure Grows (t t' : RuleTable) : Prop where
  sound : t'.Sound
  loose : t'.loose = t.loose

theorem Grows.trans {t t' t'' : RuleTable} (h : t.Grows t') (h' : t'.Grows t'') : t.Grows t'' :=
  ⟨h'.sound, h'.loose.trans h.loose⟩

namespace Sound

theorem empty : Sound {} := ⟨.empty, fun _ h => absurd h List.not_mem_nil⟩

theorem refl (h : t.Sound) : t.Grows t := ⟨h, rfl⟩

theorem push {key? : Option RuleKey} (h : t.Sound) (hkey : ∀ key, key? = some key → key.letter ∈ entry.letters)
    (hentry : entry.Sound) : (t.push key? entry).Sound := by
  refine ⟨h.inStep.push hkey, fun e he => ?_⟩
  rcases List.mem_append.mp he with he | he
  · exact h.filled e he
  · exact List.mem_singleton.mp he ▸ hentry

theorem push_some (h : t.Sound) (hnew : t.position? key = none) (hkey : key.letter ∈ entry.letters)
    (hentry : entry.Sound) : t.Grows (t.push (some key) entry) where
  sound := h.push (by rintro _ ⟨⟩; exact hkey) hentry
  loose := (h.inStep.loose_push (some key) entry (by rintro _ ⟨⟩; exact hnew)).trans (List.append_nil _)

/-- There is an entry at the position that a key points to, and it can be changed. -/
theorem amend (h : t.Sound) (hi : t.position? key = some i) (hchange : Entry.Sane change) :
    ∃ r, t.amend i change = some r ∧ t.Grows r.1 := by
  obtain ⟨entry, -, hentry, -⟩ := h.inStep.kind hi
  obtain ⟨hsound, hletters⟩ := hchange entry (h.filled entry (List.mem_of_getElem? hentry))
  refine ⟨_, by rw [RuleTable.amend, hentry], ⟨h.inStep.set hentry hletters, fun e he => ?_⟩, ?_⟩
  · rcases List.mem_or_eq_of_mem_set he with he | rfl
    · exact h.filled e he
    · exact hsound
  · exact loose_set (pointsTo_of_lookup hi) _

theorem amendOrPush (h : t.Sound) (hkey : key.letter ∈ fresh.letters) (hfresh : fresh.Sound)
    (hchange : Entry.Sane change) : ∃ r, t.amendOrPush key change fresh = some r ∧ t.Grows r.1 := by
  cases hi : t.position? key with
  | none => exact ⟨_, by rw [RuleTable.amendOrPush, hi], h.push_some hi hkey hfresh⟩
  | some i =>
    obtain ⟨r, hr, hgrows⟩ := h.amend hi hchange
    exact ⟨r, by rw [RuleTable.amendOrPush, hi]; exact hr, hgrows⟩

theorem pushNew (h : t.Sound) (hkey : key.letter ∈ fresh.letters) (hfresh : fresh.Sound) :
    t.Grows (t.pushNew key fresh).1 := by
  rw [RuleTable.pushNew]
  split
  · exact h.refl
  · next hi => exact h.push_some (by simpa using hi) hkey hfresh

theorem insertBlock (h : t.Sound) (rule : String) (hbody : body.Sound) (hl : body.loose = []) :
    t.Grows (t.insertBlock rule body).1 := by
  rw [RuleTable.insertBlock]
  split
  · exact h.refl
  · next hne =>
    exact h.pushNew (List.mem_singleton_self _)
      (.block (by simpa [isEmpty] using hne) hbody.inStep hbody.filled hl)

theorem insertKeyframes (h : t.Sound) (name : String) (hne : frames ≠ [])
    (hf : ∀ frame ∈ frames, frame.2 ≠ [] ∧ Declaration.Sorted frame.2) :
    t.Grows (t.insertKeyframes name frames).1 :=
  h.pushNew (List.mem_singleton_self _) (.keyframes hne hf)

/-- A face is the one entry that comes without a key. -/
theorem pushUnkeyed (h : t.Sound) (selector : String) (hne : declarations ≠ []) :
    (t.pushUnkeyed selector declarations).Sound ∧
      (t.pushUnkeyed selector declarations).loose =
        t.loose ++ [.style [selector] (Declaration.sort declarations) true] :=
  ⟨h.push (fun _ hkey => nomatch hkey) (Entry.sound_single selector hne true),
    h.inStep.loose_push none _ fun _ hkey => nomatch hkey⟩

/-! ## Compiling -/

theorem insertRule (h : t.Sound) (selector : String) (declarations : List Declaration) (unique : Bool) :
    ∃ t', t.insertRule sharing selector declarations unique = some t' ∧ t.Grows t' := by
  rw [RuleTable.insertRule]
  split
  · exact ⟨t, rfl, h.refl⟩
  · next hempty =>
    have hne : declarations ≠ [] := by simpa using hempty
    have hsorted : Declaration.sort declarations ≠ [] := Declaration.sort_ne_nil hne
    cases sharing with
    | byDeclarations =>
      have hkey : ∀ block : String, (if unique then RuleKey.unique selector block else .shared block).letter ∈
          (Entry.style [selector] (Declaration.sort declarations) unique).letters := by
        intro block
        cases unique <;> simp [RuleKey.letter, Entry.letters]
      obtain ⟨r, hr, hgrows⟩ :=
        h.amendOrPush (hkey _) (Entry.sound_single selector hne unique) (Entry.sane_addSelectors [selector])
      exact ⟨r.1, congrArg (Option.map Prod.fst) hr, hgrows⟩
    | bySelector =>
      have hkey : (RuleKey.literal selector).letter ∈
          (Entry.style [selector] (Declaration.sort declarations) false).letters := by
        simp [RuleKey.letter, Entry.letters]
      obtain ⟨r, hr, hgrows⟩ :=
        h.amendOrPush hkey (Entry.sound_single selector hne false) (Entry.sane_mergeDeclarations hsorted)
      exact ⟨r.1, congrArg (Option.map Prod.fst) hr, hgrows⟩

mutual

theorem insertNode : ∀ (node : FlatNode) {t : RuleTable}, t.Sound →
    ∃ t', t.insertNode sharing node = some t' ∧ t.Grows t'
  | .rule selector declarations unique, _, h => h.insertRule selector declarations unique
  | .atRule rule children, t, h => by
    obtain ⟨body, hbody, hgrows⟩ := insertNodes children Sound.empty
    refine ⟨(t.insertBlock rule body).1, ?_, h.insertBlock rule hgrows.sound hgrows.loose⟩
    rw [RuleTable.insertNode, hbody]
    rfl

theorem insertNodes : ∀ (nodes : List FlatNode) {t : RuleTable}, t.Sound →
    ∃ t', t.insertNodes sharing nodes = some t' ∧ t.Grows t'
  | [], t, h => ⟨t, rfl, h.refl⟩
  | node :: rest, t, h => by
    obtain ⟨t₁, hnode, hgrows₁⟩ := insertNode node h
    obtain ⟨t₂, hrest, hgrows₂⟩ := insertNodes rest hgrows₁.sound
    exact ⟨t₂, by rw [RuleTable.insertNodes, hnode]; exact hrest, hgrows₁.trans hgrows₂⟩

end

/-! ## Merging -/

theorem mergeStyleEntry (h : t.Sound) (root : String) (hentry : entry.Sound) :
    ∃ r, t.mergeStyleEntry root entry = some r ∧ t.Grows r.1 := by
  cases hentry with
  | @style selectors declarations unique hne hs hdne hd =>
    rw [RuleTable.mergeStyleEntry]
    split
    · exact h.amendOrPush (by simp [RuleKey.letter, Entry.letters]) (.style hne hs hdne hd)
        (Entry.sane_addSelectors selectors)
    · exact ⟨_, rfl, h.pushNew (by simp [RuleKey.letter, Entry.letters]) (.style hne hs hdne hd)⟩
  | block hne hi hb hl => exact ⟨_, rfl, h.insertBlock _ ⟨hi, hb⟩ hl⟩
  | keyframes hne hf => exact ⟨_, rfl, h.insertKeyframes _ hne hf⟩

theorem mergeLiteralEntry (h : t.Sound) (hentry : entry.Sound) :
    ∃ r, t.mergeLiteralEntry entry = some r ∧ t.Grows r.1 := by
  cases hentry with
  | style hne hs hdne hd =>
    exact h.amendOrPush (by simp [RuleKey.letter, Entry.letters]) (.style hne hs hdne hd)
      (Entry.sane_mergeDeclarations hdne)
  | block hne hi hb hl => exact ⟨_, rfl, h.insertBlock _ ⟨hi, hb⟩ hl⟩
  | keyframes hne hf => exact ⟨_, rfl, h.insertKeyframes _ hne hf⟩

theorem mergeAll {merge : RuleTable → Entry → Option (RuleTable × Bool)}
    (hmerge : ∀ {t entry}, Sound t → Entry.Sound entry → ∃ r, merge t entry = some r ∧ t.Grows r.1)
    {entries : List Entry} (h : t.Sound) (hentries : ∀ entry ∈ entries, entry.Sound) :
    ∃ r, RuleTable.mergeAll merge t entries = some r ∧ t.Grows r.1 := by
  induction entries generalizing t with
  | nil => exact ⟨_, rfl, h.refl⟩
  | cons entry rest ih =>
    obtain ⟨r₁, hr₁, hgrows₁⟩ := hmerge h (hentries entry List.mem_cons_self)
    obtain ⟨r₂, hr₂, hgrows₂⟩ := ih hgrows₁.sound fun e he => hentries e (List.mem_cons_of_mem _ he)
    refine ⟨(r₂.1, r₁.2 || r₂.2), ?_, hgrows₁.trans hgrows₂⟩
    rw [RuleTable.mergeAll, hr₁, Option.bind_some]
    exact congrArg (Option.map _) hr₂

theorem mergeStyle (h : t.Sound) {compiled : RuleTable} (hc : ∀ entry ∈ compiled.entries, entry.Sound) (root : String) :
    ∃ r, t.mergeStyle compiled root = some r ∧ t.Grows r.1 :=
  mergeAll (fun h hentry => h.mergeStyleEntry root hentry) h hc

theorem mergeLiteral (h : t.Sound) {compiled : RuleTable} (hc : ∀ entry ∈ compiled.entries, entry.Sound) :
    ∃ r, t.mergeLiteral compiled = some r ∧ t.Grows r.1 :=
  mergeAll mergeLiteralEntry h hc

end Sound

/-- Flat nodes always compile, to a sound table in which every entry has a key. -/
theorem exists_ofNodes (sharing : Sharing) (nodes : List FlatNode) :
    ∃ t, ofNodes sharing nodes = some t ∧ t.Sound ∧ t.loose = [] := by
  obtain ⟨t, ht, hgrows⟩ := Sound.insertNodes nodes Sound.empty
  exact ⟨t, ht, hgrows.sound, hgrows.loose⟩

theorem sound_of_ofNodes {nodes : List FlatNode} (h : ofNodes sharing nodes = some t) : t.Sound ∧ t.loose = [] := by
  obtain ⟨t', ht', hsound⟩ := exists_ofNodes sharing nodes
  obtain rfl : t = t' := Option.some.inj (h.symm.trans ht')
  exact hsound

end RuleTable

end StyleEngine
