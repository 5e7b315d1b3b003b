import CompatChanges.Proofs.LineBreak

/-!
# What an indented document keeps

Line breaks between tags are layout where only elements stand, and content next to other text. An
indented document is read as the document that it was written from if and only if every element with
ink has all its tags, except its start tag, right after text.
-/

namespace CompatChanges.Xml

open Text

/-! ## Where no line break is put -/

/-- Whether every element and the end stand right after text. -/
def unbroken : (afterText : Bool) → List Node → Bool
  | afterText, [] => afterText
  | afterText, .element _ :: rest => afterText && unbroken false rest
  | _, .text _ _ :: rest => unbroken true rest

variable {spaces depth : Nat}

theorem withBreaks_of_unbroken {afterText : Bool} {nodes : List Node}
    (hunbroken : unbroken afterText nodes = true) : withBreaks spaces depth afterText nodes = nodes := by
  induction nodes generalizing afterText with
  | nil =>
    have hafter : afterText = true := hunbroken
    subst hafter
    rfl
  | cons node rest ih =>
    cases node with
    | element child =>
      obtain ⟨hafter, hrest⟩ := Bool.and_eq_true_iff.mp hunbroken
      subst hafter
      rw [withBreaks, ih hrest]
      rfl
    | text string span => rw [withBreaks, ih hunbroken]

theorem unbroken_map_spaced (afterText : Bool) (nodes : List Node) :
    unbroken afterText (nodes.map (Node.spaced spaces depth)) = unbroken afterText nodes := by
  induction nodes generalizing afterText with
  | nil => rfl
  | cons node rest ih =>
    cases node with
    | element child => exact congrArg (afterText && ·) (ih false)
    | text string span => exact ih true

/-- The characters of the texts in `nodes`. -/
def charCount (nodes : List Node) : Nat := (nodes.flatMap Node.chars).length

theorem charCount_append (left right : List Node) :
    charCount (left ++ right) = charCount left + charCount right := by
  simp [charCount]

theorem charCount_element (child : Element) (rest : List Node) :
    charCount (.element child :: rest) = charCount rest := rfl

theorem charCount_text (string : String) (span : Span) (rest : List Node) :
    charCount (.text string span :: rest) = string.toList.length + charCount rest := by
  simp [charCount, Node.chars]

theorem charCount_gapNodes_pos (spaces depth : Nat) : 0 < charCount (gapNodes spaces depth false) := by
  simp [gapNodes, charCount, Node.chars, lineBreak]

theorem charCount_le_withBreaks (afterText : Bool) (nodes : List Node) :
    charCount nodes ≤ charCount (withBreaks spaces depth afterText nodes) := by
  induction nodes generalizing afterText with
  | nil => exact Nat.zero_le _
  | cons node rest ih =>
    cases node with
    | element child =>
      have hrest := ih false
      rw [withBreaks, charCount_append, charCount_element, charCount_element]
      omega
    | text string span =>
      have hrest := ih true
      rw [withBreaks, charCount_text, charCount_text]
      omega

/-- Every line break counts. -/
theorem unbroken_of_charCount_eq {afterText : Bool} {nodes : List Node}
    (hcount : charCount (withBreaks spaces depth afterText nodes) = charCount nodes) :
    unbroken afterText nodes = true := by
  induction nodes generalizing afterText with
  | nil =>
    cases afterText with
    | true => rfl
    | false =>
      have hpos := charCount_gapNodes_pos spaces depth
      have hzero : charCount (gapNodes spaces depth false) = 0 := hcount
      omega
  | cons node rest ih =>
    cases node with
    | element child =>
      have hle : charCount rest ≤ charCount (withBreaks spaces depth false rest) :=
        charCount_le_withBreaks false rest
      rw [withBreaks, charCount_append, charCount_element, charCount_element] at hcount
      cases afterText with
      | true => exact ih (by omega)
      | false =>
        have hpos := charCount_gapNodes_pos spaces (depth + 1)
        omega
    | text string span =>
      rw [withBreaks, charCount_text, charCount_text] at hcount
      exact ih (by omega)

/-! ## Ink -/

theorem any_isInk_gapNodes (depth : Nat) (afterText : Bool) :
    (gapNodes spaces depth afterText).any Node.isInk = false := by
  have hblank : (lineBreak spaces depth).all isBlank = true := by
    have hspace : isBlank ' ' = true := by decide
    have hbreak : isBlank '\n' = true := by decide
    simp [lineBreak, hspace, hbreak]
  cases afterText with
  | true => rfl
  | false => simp [gapNodes, Node.isInk, hblank]

/-- What no line break has, a row of nodes does not get with them. -/
theorem any_withBreaks {p : Node → Bool}
    (hgap : ∀ depth afterText, (gapNodes spaces depth afterText).any p = false) (afterText : Bool)
    (nodes : List Node) : (withBreaks spaces depth afterText nodes).any p = nodes.any p := by
  induction nodes generalizing afterText with
  | nil => exact hgap depth afterText
  | cons node rest ih =>
    cases node with
    | element child => rw [withBreaks, List.any_append, hgap, Bool.false_or, List.any_cons, ih, List.any_cons]
    | text string span => rw [withBreaks, List.any_cons, ih, List.any_cons]

theorem any_isInk_withBreaks (afterText : Bool) (nodes : List Node) :
    (withBreaks spaces depth afterText nodes).any Node.isInk = nodes.any Node.isInk :=
  any_withBreaks any_isInk_gapNodes afterText nodes

theorem any_isInk_map_spaced (nodes : List Node) :
    (nodes.map (Node.spaced spaces depth)).any Node.isInk = nodes.any Node.isInk :=
  any_map_of_eq (fun node => by cases node <;> rfl) nodes

theorem charCount_map_spaced (spaces depth : Nat) (nodes : List Node) :
    charCount (nodes.map (Node.spaced spaces depth)) = charCount nodes := by
  induction nodes with
  | nil => rfl
  | cons node rest ih =>
    cases node with
    | element child => exact ih
    | text string span => rw [List.map_cons, Node.spaced, charCount_text, charCount_text, ih]

theorem charCount_eq_length_inkOf {nodes : List Node} (hink : nodes.any Node.isInk = true) :
    (inkOf nodes).length = charCount nodes := by
  rw [inkOf, if_pos hink, charCount]

/-- Without ink only elements are content. -/
theorem ofNodes_of_not_ink {nodes : List Node} (hink : ¬nodes.any Node.isInk = true) :
    Content.ofNodes nodes = Content.classify ((nodes.filterMap Node.element?).map .element) := by
  unfold Content.ofNodes Content.withoutLayout
  rw [if_neg hink, filter_isElement]

/-! ## Trees -/

/-- Every element with ink has its child elements and its end tag right after text. -/
def Element.Unbroken (element : Element) : Prop :=
  ∀ inner ∈ element.subtree,
    inner.content.nodes.any Node.isInk = true → unbroken false inner.content.nodes = true

theorem Element.normal_spaced {element : Element} (hunbroken : element.Unbroken) :
    (element.spaced spaces depth).normal = element.normal := by
  induction element using childInduction generalizing depth with
  | mk name attributes content span ih =>
    by_cases hempty : content = .empty
    · subst hempty
      rfl
    have hchild : ∀ child, Node.element child ∈ content.nodes →
        (child.spaced spaces (depth + 1)).normal = child.normal := by
      intro child hmem
      apply ih child hmem
      intro inner hinner
      exact hunbroken inner (mem_subtree_of_child hmem hinner)
    have hnodes : (content.nodes.map (Node.spaced spaces (depth + 1))).map Node.normal =
        content.nodes.map Node.normal := by
      rw [List.map_map]
      apply List.map_congr_left
      intro node hmem
      cases node with
      | element child => exact congrArg Node.element (hchild child hmem)
      | text string place => rfl
    rw [spaced, normal_mk, normal_mk, Content.nodes_spaced hempty]
    by_cases hink : content.nodes.any Node.isInk = true
    · have hself : unbroken false content.nodes = true :=
        hunbroken _ (mk name attributes content span).self_mem_subtree hink
      rw [withBreaks_of_unbroken (by rwa [unbroken_map_spaced]), hnodes]
    · -- Only elements are left, on both sides.
      rw [ofNodes_of_not_ink, ofNodes_of_not_ink, filterMap_element?_joinTexts,
        filterMap_element?_joinTexts, filterMap_element?_map_normal, filterMap_element?_withBreaks,
        ← filterMap_element?_map_normal, hnodes]
      · rwa [any_isInk_joinTexts, any_isInk_map_normal]
      · rwa [any_isInk_joinTexts, any_isInk_map_normal, any_isInk_withBreaks, any_isInk_map_spaced]

/-- Lists that are equal part by part in length and equal as wholes have equal parts. -/
theorem eq_of_flatMap_eq {α β : Type} {f g : α → List β} {items : List α}
    (hlength : ∀ item ∈ items, (f item).length = (g item).length)
    (hsame : items.flatMap f = items.flatMap g) : ∀ item ∈ items, f item = g item := by
  induction items with
  | nil => simp
  | cons item rest ih =>
    obtain ⟨hitem, hrest⟩ := List.forall_mem_cons.mp hlength
    rw [List.flatMap_cons, List.flatMap_cons] at hsame
    obtain ⟨hfirst, hlater⟩ := List.append_inj hsame hitem
    exact List.forall_mem_cons.mpr ⟨hfirst, ih hrest hlater⟩

theorem Element.unbroken_of_heading_eq {element : Element}
    (hsame : (element.spaced spaces depth).subtree.map heading = element.subtree.map heading) :
    element.Unbroken := by
  induction element using childInduction generalizing depth with
  | mk name attributes content span ih =>
    rw [spaced, subtree_mk, subtree_mk, List.map_cons, List.map_cons, List.cons.injEq,
      Content.children_spaced, List.flatMap_map, List.map_flatMap, List.map_flatMap] at hsame
    obtain ⟨hself, hchildren⟩ := hsame
    have hchild : ∀ child ∈ content.children,
        (child.spaced spaces (depth + 1)).subtree.map heading = child.subtree.map heading := by
      apply eq_of_flatMap_eq _ hchildren
      intro child _
      have hlabels : (child.spaced spaces (depth + 1)).subtree.map label = child.subtree.map label :=
        child.label_subtree_spaced
      simpa using congrArg List.length hlabels
    intro inner hinner hink
    rw [subtree_mk, List.mem_cons, List.mem_flatMap] at hinner
    rcases hinner with rfl | ⟨child, hmem, hinner⟩
    · have hempty : content ≠ .empty := by
        rintro rfl
        cases hink
      rw [content_mk] at hink ⊢
      simp only [heading, content_mk, Content.nodes_spaced hempty, Prod.mk.injEq] at hself
      have hcount := congrArg List.length hself.2.2
      have hinkSpaced : (withBreaks spaces depth false
          (content.nodes.map (Node.spaced spaces (depth + 1)))).any Node.isInk = true := by
        rw [any_isInk_withBreaks, any_isInk_map_spaced]
        exact hink
      rw [charCount_eq_length_inkOf hinkSpaced, charCount_eq_length_inkOf hink,
        ← charCount_map_spaced spaces (depth + 1) content.nodes] at hcount
      have hunbroken := unbroken_of_charCount_eq hcount
      rwa [unbroken_map_spaced] at hunbroken
    · exact ih child (Content.mem_children.mp hmem) (hchild child hmem) inner hinner hink

/-- Line breaks leave the normal form as it is if and only if none is put next to ink. -/
theorem Element.normal_spaced_bare_eq_iff {element : Element} :
    (element.spaced spaces depth).normal.bare = element.normal.bare ↔ element.Unbroken := by
  constructor
  · intro hsame
    have hheadings : (element.spaced spaces depth).subtree.map heading =
        element.subtree.map heading := by
      rw [← heading_subtree_normal, ← heading_subtree_bare, hsame, heading_subtree_bare,
        heading_subtree_normal]
    exact unbroken_of_heading_eq hheadings
  · intro hunbroken
    rw [normal_spaced hunbroken]

instance (element : Element) : Decidable element.Unbroken :=
  inferInstanceAs (Decidable (∀ inner ∈ element.subtree,
    inner.content.nodes.any Node.isInk = true → unbroken false inner.content.nodes = true))

/-! ## Documents -/

/-- Every element and every attribute in the tree has an ordinary name. -/
def Element.HasNames (element : Element) : Prop :=
  ∀ inner ∈ element.subtree, IsName inner.name ∧ ∀ a ∈ inner.attributes, IsName a.name

instance (element : Element) : Decidable element.HasNames :=
  inferInstanceAs (Decidable (∀ inner ∈ element.subtree,
    IsName inner.name ∧ ∀ a ∈ inner.attributes, IsName a.name))

theorem legible_of_hasNames {source : List Char} {document : Document}
    (hparse : parseChars source = .ok document) (hnames : document.root.HasNames) :
    document.root.Legible := by
  intro inner hinner
  have hread := namesRead_of_parse hparse hinner
  obtain ⟨hname, hattributes⟩ := hnames inner hinner
  exact ⟨hname.isTagName hread.head, fun a hmem => (hattributes a hmem).isKey, hread.distinct⟩

/-- A document that was read comes back the same from an indented copy and from one without line
breaks if and only if its elements with ink are unbroken. Its tags come back in any case. -/
theorem parse_render_indented_eq_compact_iff {source : String} {document : Document}
    (hparse : parse source = .ok document) (hnames : document.root.HasNames) (spaces : Nat) :
    ∃ pretty compact,
      parse (render document.root (.indented spaces)) = .ok pretty ∧
        parse (render document.root .compact) = .ok compact ∧
          pretty.root.subtree.map Element.tag = compact.root.subtree.map Element.tag ∧
            (pretty.root.bare = compact.root.bare ↔ document.root.Unbroken) := by
  have hlegible := legible_of_hasNames hparse hnames
  obtain ⟨pretty, hpretty, hprettyBare⟩ :=
    exists_parse_render_laidOut hlegible (.indented spaces)
  obtain ⟨compact, hcompact, hcompactBare⟩ := exists_parse_render_laidOut hlegible .compact
  refine ⟨pretty, compact, hpretty, hcompact, ?_, ?_⟩
  · rw [Element.tag_subtree_of_bare_eq hprettyBare, Element.tag_subtree_of_bare_eq hcompactBare]
  · rw [hprettyBare, hcompactBare]
    exact Element.normal_spaced_bare_eq_iff

/-- Line breaks in `a`, which has no ink, and none in `p`. -/
theorem parse_render_indented_unbroken :
    ∃ document, parse "<a k='1'><p>x<b/>y</p> <q/></a>" = .ok document ∧ document.root.HasNames ∧
      ∃ pretty compact,
        parse (render document.root (.indented 2)) = .ok pretty ∧
          parse (render document.root .compact) = .ok compact ∧
            pretty.root.subtree.map Element.tag = compact.root.subtree.map Element.tag ∧
              pretty.root.bare = compact.root.bare := by
  have hread : (parse "<a k='1'><p>x<b/>y</p> <q/></a>").toOption.map
      (fun document => decide (document.root.HasNames ∧ document.root.Unbroken)) = some true := by
    decide +kernel
  obtain ⟨document, hdocument, hchecked⟩ := Option.map_eq_some_iff.mp hread
  obtain ⟨hnames, hunbroken⟩ := of_decide_eq_true hchecked
  have hparse := toOption_eq_some_iff.mp hdocument
  obtain ⟨pretty, compact, hpretty, hcompact, htags, hiff⟩ :=
    parse_render_indented_eq_compact_iff hparse hnames 2
  exact ⟨document, hparse, hnames, pretty, compact, hpretty, hcompact, htags, hiff.mpr hunbroken⟩

/-- A line break before the end tag of an element with ink becomes a text in it. -/
theorem parse_render_indented_ne_compact :
    ∃ document pretty compact,
      parse "<p>x<b/></p>" = .ok document ∧ document.root.HasNames ∧
        parse (render document.root (.indented 2)) = .ok pretty ∧
          parse (render document.root .compact) = .ok compact ∧
            pretty.root.bare ≠ compact.root.bare := by
  have hread : ((parse "<p>x<b/></p>").toOption.bind fun document =>
      (parse (render document.root (.indented 2))).toOption.bind fun pretty =>
        (parse (render document.root .compact)).toOption.map fun compact =>
          decide (document.root.HasNames ∧ pretty.root.bare.events ≠ compact.root.bare.events)) =
      some true := by
    decide +kernel
  obtain ⟨document, hdocument, hread⟩ := Option.bind_eq_some_iff.mp hread
  obtain ⟨pretty, hpretty, hread⟩ := Option.bind_eq_some_iff.mp hread
  obtain ⟨compact, hcompact, hchecked⟩ := Option.map_eq_some_iff.mp hread
  obtain ⟨hnames, hevents⟩ := of_decide_eq_true hchecked
  exact ⟨document, pretty, compact, toOption_eq_some_iff.mp hdocument, hnames,
    toOption_eq_some_iff.mp hpretty, toOption_eq_some_iff.mp hcompact,
    fun hsame => hevents (congrArg Element.events hsame)⟩

end CompatChanges.Xml
