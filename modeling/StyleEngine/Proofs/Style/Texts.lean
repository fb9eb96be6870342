import StyleEngine.FlatNode
import StyleEngine.Proofs.Text.Chars

/-!
# Texts through normalizing and flattening

What is known of the characters of a description is known of its normal style, and what composition
keeps holds of every selector of the flat nodes.
-/

namespace StyleEngine

theorem ok_of_map_ok {ε α β : Type} {x : Except ε α} {f : α → β} {b : β} (h : x.map f = .ok b) :
    ∃ a, x = .ok a ∧ f a = b := by
  cases x with
  | error e => cases h
  | ok a => exact ⟨a, rfl, Except.ok.inj h⟩

section

variable {P : Char → Prop}

/-- Whatever the value is written as has allowed characters only. -/
def Value.Texts (P : Char → Prop) (v : Value) : Prop :=
  ∀ w ∈ v.fallbacks, ∀ s, w.css = .ok s → AllChars P s

/-- All property names, values and selector keys have allowed characters only. -/
inductive Description.Texts (P : Char → Prop) : Description → Prop
  | mk {declarations : List (String × Value)} {nested : List (String × Description)}
      {unique? : Option Bool} {debugName? : Option String} {priority? : Option Nat}
      (properties : ∀ e ∈ declarations, AllChars P e.1) (values : ∀ e ∈ declarations, e.2.Texts P)
      (keys : ∀ e ∈ nested, AllChars P e.1) (children : ∀ e ∈ nested, Texts P e.2) :
      Texts P ⟨declarations, nested, unique?, debugName?, priority?⟩

/-- Every key satisfies `K` and every entry `E`, at any depth. -/
inductive Description.All (K : String → Prop) (E : String × Value → Prop) : Description → Prop
  | mk {declarations : List (String × Value)} {nested : List (String × Description)}
      {unique? : Option Bool} {debugName? : Option String} {priority? : Option Nat}
      (own : ∀ e ∈ declarations, E e) (keys : ∀ e ∈ nested, K e.1) (children : ∀ e ∈ nested, All K E e.2) :
      All K E ⟨declarations, nested, unique?, debugName?, priority?⟩

theorem Description.Texts.all {d : Description} (h : d.Texts P) :
    d.All (AllChars P) fun e => AllChars P e.1 ∧ e.2.Texts P := by
  induction h with
  | mk hp hv hk _ ih => exact .mk (fun e he => ⟨hp e he, hv e he⟩) hk ih

theorem Description.Texts.mono {Q : Char → Prop} {d : Description} (h : d.Texts P)
    (hpq : ∀ c, P c → Q c) : d.Texts Q := by
  induction h with
  | mk hp hv hk _ ih =>
    refine .mk (fun e he => (hp e he).mono hpq) (fun e he => ?_) (fun e he => (hk e he).mono hpq) ih
    exact fun w hw s hs => (hv e he w hw s hs).mono hpq

/-- Both parts have allowed characters only. -/
def Declaration.Texts (P : Char → Prop) (d : Declaration) : Prop :=
  AllChars P d.property ∧ AllChars P d.value

theorem Declaration.Texts.mono {Q : Char → Prop} {d : Declaration} (h : d.Texts P) (hpq : ∀ c, P c → Q c) :
    d.Texts Q :=
  ⟨h.1.mono hpq, h.2.mono hpq⟩

/-- Every key satisfies `K` and every declaration `D`, at any depth. -/
inductive NormalStyle.All (K : String → Prop) (D : Declaration → Prop) : NormalStyle → Prop
  | mk {declarations : List Declaration} {nested : List (String × NormalStyle)} {unique : Bool}
      {debugName? : Option String} (own : ∀ d ∈ declarations, D d) (keys : ∀ e ∈ nested, K e.1)
      (children : ∀ e ∈ nested, All K D e.2) : All K D ⟨declarations, nested, unique, debugName?⟩

/-- Every selector satisfies `S`, every declaration `D` and every at-rule `A`. -/
inductive FlatNode.All (S : String → Prop) (D : Declaration → Prop) (A : String → Prop) : FlatNode → Prop
  | rule {selector : String} {declarations : List Declaration} {unique : Bool} (hs : S selector)
      (hd : ∀ d ∈ declarations, D d) : All S D A (.rule selector declarations unique)
  | atRule {rule : String} {children : List FlatNode} (ha : A rule)
      (hc : ∀ child ∈ children, All S D A child) : All S D A (.atRule rule children)

theorem NormalStyle.All.and {K L : String → Prop} {D E : Declaration → Prop} {style : NormalStyle}
    (h : style.All K D) (h' : style.All L E) : style.All (fun k => K k ∧ L k) (fun d => D d ∧ E d) := by
  induction h with
  | mk own keys _ ih =>
    cases h' with
    | mk own' keys' children' =>
      exact .mk (fun d hd => ⟨own d hd, own' d hd⟩) (fun e he => ⟨keys e he, keys' e he⟩)
        fun e he => ih e he (children' e he)

theorem FlatNode.All.mono {S S' A A' : String → Prop} {D D' : Declaration → Prop} {node : FlatNode}
    (h : node.All S D A) (hS : ∀ s, S s → S' s) (hD : ∀ d, D d → D' d) (hA : ∀ a, A a → A' a) :
    node.All S' D' A' := by
  induction h with
  | rule hs hd => exact .rule (hS _ hs) fun d hm => hD d (hd d hm)
  | atRule ha _ ih => exact .atRule (hA _ ha) ih

/-! ## Properties -/

theorem AllChars.ofList {cs : List Char} (h : ∀ c ∈ cs, P c) : AllChars P (String.ofList cs) := by
  intro c hc
  rw [String.toList_ofList] at hc
  exact h c hc

/-- Small letters are closed under lowering, whatever else is allowed. -/
theorem lower_of_letters (hp : ∀ c : Char, 97 ≤ c.toNat → c.toNat ≤ 122 → P c) (c : Char) (h : P c) :
    P c.toLower := by
  unfold Char.toLower
  split
  · next hc =>
    have hlo : 65 ≤ c.val.toNat := hc.1
    have hhi : c.val.toNat ≤ 90 := hc.2
    have hsub : 'a'.val - 'A'.val = 32 := by decide
    have hv : (c.val + ('a'.val - 'A'.val)).toNat = c.val.toNat + 32 := by
      rw [hsub, UInt32.toNat_add]
      exact Nat.mod_eq_of_lt (by show c.val.toNat + 32 < 2 ^ 32; omega)
    refine hp _ ?_ ?_
    · show 97 ≤ (c.val + ('a'.val - 'A'.val)).toNat
      omega
    · show (c.val + ('a'.val - 'A'.val)).toNat ≤ 122
      omega
  · exact h

/-- Written with hyphens, a property gains hyphens and loses capitals. -/
theorem allChars_hyphenate (hdash : P '-') (hlower : ∀ c, P c → P c.toLower) {name : String}
    (h : AllChars P name) : AllChars P (Property.hyphenate name) := by
  have hchar : ∀ cs : List Char, (∀ c ∈ cs, P c) → ∀ c ∈ cs.flatMap Property.hyphenateChar, P c := by
    intro cs hcs c hc
    obtain ⟨d, hd, hc⟩ := List.mem_flatMap.mp hc
    have hp : P d := hcs d hd
    unfold Property.hyphenateChar at hc
    split at hc
    · rcases List.mem_cons.mp hc with rfl | hc
      · exact hdash
      · rw [List.mem_singleton.mp hc]; exact hlower d hp
    · rw [List.mem_singleton.mp hc]; exact hp
  refine AllChars.ofList ?_
  unfold Property.hyphenateChars
  split
  · next heq => exact heq ▸ h
  · unfold Property.vendorDash
    split
    · next heq =>
      intro c hc
      rcases List.mem_cons.mp hc with rfl | hc
      · exact hdash
      · exact hchar _ h c (heq ▸ hc)
    · exact hchar _ h

theorem texts_renderValues {property : String} (hp : AllChars P property) {vs : List Value}
    {ds : List Declaration} (hv : ∀ w ∈ vs, ∀ s, w.css = .ok s → AllChars P s)
    (h : Description.renderValues property vs = .ok ds) : ∀ d ∈ ds, d.Texts P := by
  induction vs generalizing ds with
  | nil =>
    obtain rfl := Except.ok.inj h
    exact fun _ hd => absurd hd List.not_mem_nil
  | cons v rest ih =>
    unfold Description.renderValues at h
    split at h
    · cases h
    · next s hs =>
      obtain ⟨ds', h', rfl⟩ := ok_of_map_ok h
      intro d hd
      rcases List.mem_cons.mp hd with rfl | hd
      · exact ⟨hp, hv v List.mem_cons_self s hs⟩
      · exact ih (fun w hw => hv w (List.mem_cons_of_mem _ hw)) h' d hd

theorem texts_renderDeclarations (hdash : P '-') (hlower : ∀ c, P c → P c.toLower)
    {entries : List (String × Value)} {ds : List Declaration} (hp : ∀ e ∈ entries, AllChars P e.1)
    (hv : ∀ e ∈ entries, e.2.Texts P) (h : Description.renderDeclarations entries = .ok ds) :
    ∀ d ∈ ds, d.Texts P := by
  induction entries generalizing ds with
  | nil =>
    obtain rfl := Except.ok.inj h
    exact fun _ hd => absurd hd List.not_mem_nil
  | cons e rest ih =>
    obtain ⟨property, value⟩ := e
    unfold Description.renderDeclarations at h
    split at h
    · cases h
    · next own hown =>
      obtain ⟨ds', h', rfl⟩ := ok_of_map_ok h
      have hrest := ih (fun e he => hp e (List.mem_cons_of_mem _ he))
        (fun e he => hv e (List.mem_cons_of_mem _ he)) h'
      intro d hd
      rcases List.mem_append.mp hd with hd | hd
      · unfold Description.renderEntry at hown
        split at hown
        · obtain rfl := Except.ok.inj hown
          exact absurd hd List.not_mem_nil
        · have hname := allChars_hyphenate hdash hlower (hp (property, value) List.mem_cons_self)
          exact texts_renderValues hname (hv (property, value) List.mem_cons_self) hown d hd
      · exact hrest d hd

/-! ## Normalizing -/

variable {K : String → Prop} {D : Declaration → Prop} {E : String × Value → Prop}

theorem all_raisePriority (hK : ∀ n, K (Description.repeatParent (n + 1))) (priority : Nat)
    {style : NormalStyle} (h : style.All K D) : (Description.raisePriority priority style).All K D := by
  unfold Description.raisePriority
  split
  · exact h
  · refine .mk (fun _ hd => absurd hd List.not_mem_nil) (fun e he => ?_) (fun e he => ?_)
    · rw [List.mem_singleton.mp he]
      exact hK priority
    · rw [List.mem_singleton.mp he]
      obtain ⟨own, keys, children⟩ := h
      exact .mk own keys children

/-- The styles of the children come from the children. -/
theorem forall_normalizeAll (Q : String → NormalStyle → Prop) {debug : Bool} {depth : Nat}
    {children : List (String × Description)} {styles : List (String × NormalStyle)}
    (h : Description.normalizeAll debug depth children = .ok styles)
    (hq : ∀ e ∈ children, ∀ style, e.2.normalizeAt debug depth = .ok style → Q e.1 style) :
    ∀ e ∈ styles, Q e.1 e.2 := by
  induction children generalizing styles with
  | nil =>
    unfold Description.normalizeAll at h
    obtain rfl := Except.ok.inj h
    exact fun _ he => absurd he List.not_mem_nil
  | cons child rest ih =>
    obtain ⟨key, child⟩ := child
    unfold Description.normalizeAll at h
    split at h
    · cases h
    · next first hfirst =>
      obtain ⟨styles', h', rfl⟩ := ok_of_map_ok h
      intro e he
      rcases List.mem_cons.mp he with rfl | he
      · exact hq (key, child) List.mem_cons_self first hfirst
      · exact ih h' (fun e he => hq e (List.mem_cons_of_mem _ he)) e he

theorem all_normalizeAt (hK : ∀ n, K (Description.repeatParent (n + 1)))
    (hE : ∀ entries ds, (∀ e ∈ entries, E e) → Description.renderDeclarations entries = .ok ds →
      ∀ d ∈ ds, D d)
    {d : Description} (ht : d.All K E) {debug : Bool} {depth : Nat} {style : NormalStyle}
    (h : d.normalizeAt debug depth = .ok style) : style.All K D := by
  induction ht generalizing depth style with
  | @mk declarations nested unique? debugName? priority? own keys _ ih =>
    unfold Description.normalizeAt at h
    split at h
    · cases h
    split at h
    · cases h
    next ds hds =>
    split at h
    · cases h
    next styles hstyles =>
    obtain rfl := Except.ok.inj h
    have hchildren : ∀ e ∈ styles, K e.1 ∧ e.2.All K D :=
      forall_normalizeAll (fun key style => K key ∧ style.All K D) hstyles
        fun e he style hstyle => ⟨keys e he, ih e he hstyle⟩
    refine all_raisePriority hK _ (.mk (hE _ _ own hds) ?_ ?_)
    · exact fun e he => (hchildren e he).1
    · exact fun e he => (hchildren e he).2

theorem allChars_repeatParent (hamp : P '&') (n : Nat) : AllChars P (Description.repeatParent n) := by
  refine AllChars.ofList fun c hc => ?_
  rw [(List.mem_replicate.mp hc).2]
  exact hamp

theorem Description.Texts.all_normalize (hamp : P '&') (hdash : P '-')
    (hlower : ∀ c, P c → P c.toLower) {d : Description} (ht : d.Texts P) {debug : Bool}
    {style : NormalStyle} (h : d.normalize debug = .ok style) :
    style.All (AllChars P) (Declaration.Texts P) := by
  refine all_normalizeAt (fun n => allChars_repeatParent hamp (n + 1)) (fun entries ds he hds => ?_) ht.all h
  exact texts_renderDeclarations hdash hlower (fun e hm => (he e hm).1) (fun e hm => (he e hm).2) hds

end

/-! ## Flattening -/

section

variable {K S A : String → Prop} {D : Declaration → Prop}

mutual

/-- What holds of all keys and declarations there are holds in every style. -/
theorem NormalStyle.all_of_forall (hk : ∀ k, K k) (hd : ∀ d, D d) : ∀ style : NormalStyle, style.All K D
  | ⟨_, nested, _, _⟩ =>
    .mk (fun d _ => hd d) (fun e _ => hk e.1) (NormalStyle.all_nested_of_forall hk hd nested)

theorem NormalStyle.all_nested_of_forall (hk : ∀ k, K k) (hd : ∀ d, D d) :
    ∀ nested : List (String × NormalStyle), ∀ e ∈ nested, e.2.All K D
  | [] => fun _ he => absurd he List.not_mem_nil
  | (_, child) :: rest => fun e he => by
    rcases List.mem_cons.mp he with rfl | he
    · exact NormalStyle.all_of_forall hk hd child
    · exact NormalStyle.all_nested_of_forall hk hd rest e he

end

mutual

theorem FlatNode.all_of_forall (hs : ∀ s, S s) (hd : ∀ d, D d) (ha : ∀ a, A a) :
    ∀ node : FlatNode, node.All S D A
  | .rule .. => .rule (hs _) fun d _ => hd d
  | .atRule _ children => .atRule (ha _) (FlatNode.all_children_of_forall hs hd ha children)

theorem FlatNode.all_children_of_forall (hs : ∀ s, S s) (hd : ∀ d, D d) (ha : ∀ a, A a) :
    ∀ children : List FlatNode, ∀ node ∈ children, node.All S D A
  | [] => fun _ hn => absurd hn List.not_mem_nil
  | child :: rest => fun node hn => by
    rcases List.mem_cons.mp hn with he | hn
    · exact he ▸ FlatNode.all_of_forall hs hd ha child
    · exact FlatNode.all_children_of_forall hs hd ha rest node hn

end

/-- A node below a root is an at-rule around a child, or comes from a child under its selector. -/
theorem mem_flattenNested {root : String} {nested : List (String × NormalStyle)} {node : FlatNode} :
    node ∈ NormalStyle.flattenNested root nested ↔
      ∃ e ∈ nested, (Selector.isAtRule e.1 = true ∧ node = .atRule e.1 (e.2.flatten root)) ∨
        (Selector.isAtRule e.1 = false ∧ node ∈ e.2.flatten (Selector.compose root e.1)) := by
  induction nested with
  | nil => simp [NormalStyle.flattenNested]
  | cons e rest ih =>
    obtain ⟨key, child⟩ := e
    rw [NormalStyle.flattenNested, List.mem_append, ih]
    cases hk : Selector.isAtRule key <;> simp [hk]

theorem NormalStyle.All.flatten {style : NormalStyle} (h : style.All K D)
    (hcompose : ∀ parent key, Selector.isAtRule key = false → S parent → K key →
      S (Selector.compose parent key))
    (hat : ∀ key, Selector.isAtRule key = true → K key → A key) {root : String} (hroot : S root) :
    ∀ node ∈ style.flatten root, node.All S D A := by
  induction h generalizing root with
  | @mk declarations nested unique debugName? own keys _ ih =>
    intro node hn
    unfold NormalStyle.flatten at hn
    rcases List.mem_cons.mp hn with rfl | hn
    · exact .rule hroot own
    · obtain ⟨e, he, ⟨hkey, rfl⟩ | ⟨hkey, hn⟩⟩ := mem_flattenNested.mp hn
      · exact .atRule (hat e.1 hkey (keys e he)) (ih e he hroot)
      · exact ih e he (hcompose root e.1 hkey hroot (keys e he)) node hn

end

end StyleEngine
