import CompatChanges.Proofs.Content
import CompatChanges.Proofs.Extent
import CompatChanges.Proofs.Output

/-!
# Writing what was written

A document that was read and written is written the same when it is read again. Its line breaks come back
as layout where only elements stand, and new ones are put in their places; next to ink they come back
as text, and then every tag stands right after text. A text without characters is the exception: it
keeps a line break away, and does not come back.
-/

namespace CompatChanges.Xml

open Text

/-! ### What an element is written as -/

/-- The characters of an element, without line breaks. -/
def Element.written (element : Element) : List Char := element.tokens.flatMap Token.source

def writtenNodes (nodes : List Node) : List Char := (nodeTokens nodes).flatMap Token.source

theorem writtenNodes_append (left right : List Node) :
    writtenNodes (left ++ right) = writtenNodes left ++ writtenNodes right := by
  rw [writtenNodes, nodeTokens_append, List.flatMap_append]
  rfl

theorem writtenNodes_element (child : Element) (rest : List Node) :
    writtenNodes (.element child :: rest) = child.written ++ writtenNodes rest := by
  rw [writtenNodes, nodeTokens_cons, List.flatMap_append]
  rfl

theorem writtenNodes_text (string : String) (span : Span) (rest : List Node) :
    writtenNodes (.text string span :: rest) = escapeText string.toList ++ writtenNodes rest := by
  rw [writtenNodes, nodeTokens_cons, List.flatMap_append]
  simp [Node.tokens, Token.source, writtenNodes]

theorem Element.written_congr {content other : Content} (hcontent : content ≠ .empty)
    (hother : other ≠ .empty) (hnodes : writtenNodes content.nodes = writtenNodes other.nodes)
    (name : String) (attributes : List Attribute) (span : Span) :
    (mk name attributes content span).written = (mk name attributes other span).written := by
  unfold writtenNodes at hnodes
  rw [written, written, tokens_mk hcontent, tokens_mk hother, List.flatMap_cons, List.flatMap_cons,
    List.flatMap_append, List.flatMap_append, hnodes]

theorem writtenNodes_joinText (string : String) (span : Span) (nodes : List Node) :
    writtenNodes (joinText string span nodes) = escapeText string.toList ++ writtenNodes nodes := by
  unfold joinText
  split
  · next hempty =>
    subst hempty
    rfl
  · split
    · next next place rest =>
      rw [writtenNodes_text, writtenNodes_text, String.toList_append, escapeText_append,
        List.append_assoc]
    · rw [writtenNodes_text]

/-- Texts are written the same when they are one. -/
theorem writtenNodes_joinTexts (nodes : List Node) :
    writtenNodes (joinTexts nodes) = writtenNodes nodes := by
  induction nodes with
  | nil => rfl
  | cons node rest ih =>
    cases node with
    | element child => rw [joinTexts, writtenNodes_element, writtenNodes_element, ih]
    | text string span => rw [joinTexts, writtenNodes_joinText, writtenNodes_text, ih]

/-! ### Content as it was read -/

/-- The content of every element is what its nodes make. -/
def Element.Settled (element : Element) : Prop :=
  ∀ inner ∈ element.subtree, inner.content = .ofNodes inner.content.nodes

/-- A text without characters. -/
def Node.isVoid : Node → Bool
  | .element _ => false
  | .text string _ => string = ""

/-- Some element has a text without characters. -/
def Element.HasVoid (element : Element) : Prop :=
  ∃ inner ∈ element.subtree, inner.content.nodes.any Node.isVoid = true

instance (element : Element) : Decidable element.HasVoid :=
  inferInstanceAs (Decidable (∃ inner ∈ element.subtree, inner.content.nodes.any Node.isVoid = true))

namespace Content

theorem ofNodes_eq_empty_iff {nodes : List Node} :
    ofNodes nodes = .empty ↔
      nodes.any Node.isInk = false ∧ nodes.filterMap Node.element? = [] := by
  have hclassify {nodes : List Node} : classify nodes = .empty ↔ nodes = [] := by
    constructor
    · intro hempty
      rw [← nodes_classify nodes, hempty]
      rfl
    · rintro rfl
      rfl
  by_cases hink : nodes.any Node.isInk = true
  · rw [ofNodes_of_ink hink, hclassify, hink]
    constructor
    · rintro rfl
      cases hink
    · rintro ⟨hfalse, -⟩
      cases hfalse
  · rw [ofNodes_of_not_ink hink, hclassify, List.map_eq_nil_iff]
    simp only [hink, true_and]

/-- Settled content that has no ink is elements. -/
theorem nodes_of_not_ink {content : Content} (hsettled : content = .ofNodes content.nodes)
    (hink : ¬content.nodes.any Node.isInk = true) :
    content.nodes = content.children.map .element := by
  calc
    content.nodes = (ofNodes content.nodes).nodes := by rw [← hsettled]
    _ = (content.nodes.filterMap Node.element?).map .element := by
      rw [ofNodes_of_not_ink hink, nodes_classify]

end Content

theorem Element.Settled.of_child {element child : Element} (hsettled : element.Settled)
    (hchild : .element child ∈ element.content.nodes) : child.Settled := by
  intro inner hinner
  exact hsettled inner (mem_subtree_of_child hchild hinner)

theorem Element.HasVoid.of_child {element child : Element} (hvoid : child.HasVoid)
    (hchild : .element child ∈ element.content.nodes) : element.HasVoid := by
  obtain ⟨inner, hinner, hnodes⟩ := hvoid
  exact ⟨inner, mem_subtree_of_child hchild hinner, hnodes⟩

/-! ### Without line breaks -/

theorem writtenNodes_map_congr {f g : Node → Node} {nodes : List Node}
    (hsame : ∀ node ∈ nodes, writtenNodes [f node] = writtenNodes [g node]) :
    writtenNodes (nodes.map f) = writtenNodes (nodes.map g) := by
  induction nodes with
  | nil => rfl
  | cons node rest ih =>
    obtain ⟨hnode, hrest⟩ := List.forall_mem_cons.mp hsame
    calc
      writtenNodes ((node :: rest).map f) = writtenNodes [f node] ++ writtenNodes (rest.map f) :=
        writtenNodes_append [f node] _
      _ = writtenNodes [g node] ++ writtenNodes (rest.map g) := by rw [hnode, ih hrest]
      _ = writtenNodes ((node :: rest).map g) := (writtenNodes_append [g node] _).symm

theorem Content.ofNodes_normal_eq_empty_iff {nodes : List Node} :
    ofNodes (joinTexts (nodes.map Node.normal)) = .empty ↔ ofNodes nodes = .empty := by
  rw [ofNodes_eq_empty_iff, any_isInk_joinTexts, any_isInk_map_normal, filterMap_element?_joinTexts,
    filterMap_element?_map_normal, List.map_eq_nil_iff, ofNodes_eq_empty_iff]

theorem Content.writtenNodes_normal {content : Content} (hsettled : content = .ofNodes content.nodes) :
    writtenNodes (ofNodes (joinTexts (content.nodes.map Node.normal))).nodes =
      writtenNodes (content.nodes.map Node.normal) := by
  by_cases hink : content.nodes.any Node.isInk = true
  · have hsame : (joinTexts (content.nodes.map Node.normal)).any Node.isInk = true := by
      rwa [any_isInk_joinTexts, any_isInk_map_normal]
    rw [ofNodes_of_ink hsame, nodes_classify, writtenNodes_joinTexts]
  · have hsame : ¬(joinTexts (content.nodes.map Node.normal)).any Node.isInk = true := by
      rwa [any_isInk_joinTexts, any_isInk_map_normal]
    rw [ofNodes_of_not_ink hsame, nodes_classify, filterMap_element?_joinTexts,
      filterMap_element?_map_normal, nodes_of_not_ink hsettled hink]
    simp [children, List.filterMap_map, Function.comp_def, Node.element?, Node.normal]

/-- Without line breaks, the normal form is written as the tree is. -/
theorem Element.written_normal {element : Element} (hsettled : element.Settled) :
    element.normal.written = element.written := by
  induction element using childInduction with
  | mk name attributes content span ih =>
    have hself : content = .ofNodes content.nodes := hsettled _ (self_mem_subtree _)
    by_cases hcontent : content = .empty
    · subst hcontent
      rfl
    have hnormal : Content.ofNodes (joinTexts (content.nodes.map Node.normal)) ≠ .empty := by
      rwa [ne_eq, Content.ofNodes_normal_eq_empty_iff, ← hself]
    rw [normal_mk]
    apply written_congr hnormal hcontent
    rw [Content.writtenNodes_normal hself]
    conv_rhs => rw [← List.map_id content.nodes]
    apply writtenNodes_map_congr
    intro node hmem
    cases node with
    | element child =>
      have hchild := ih child hmem (hsettled.of_child hmem)
      rw [Node.normal, writtenNodes_element, hchild]
      exact (writtenNodes_element child []).symm
    | text string place => rfl

/-! ### With line breaks -/

variable {spaces depth : Nat}

theorem unbroken_withBreaks (afterText : Bool) (nodes : List Node) :
    unbroken afterText (withBreaks spaces depth afterText nodes) = true := by
  induction nodes generalizing afterText with
  | nil => cases afterText <;> rfl
  | cons node rest ih =>
    cases node with
    | element child => cases afterText <;> exact ih false
    | text string span => exact ih true

theorem unbroken_map_normal (afterText : Bool) (nodes : List Node) :
    unbroken afterText (nodes.map Node.normal) = unbroken afterText nodes := by
  induction nodes generalizing afterText with
  | nil => rfl
  | cons node rest ih =>
    cases node with
    | element child => exact congrArg (afterText && ·) (ih false)
    | text string span => exact ih true

/-- Texts that have characters still stand there when they are one. -/
theorem unbroken_joinTexts {nodes : List Node} (hvoid : nodes.any Node.isVoid = false)
    (afterText : Bool) : unbroken afterText (joinTexts nodes) = unbroken afterText nodes := by
  induction nodes generalizing afterText with
  | nil => rfl
  | cons node rest ih =>
    rw [List.any_cons, Bool.or_eq_false_iff] at hvoid
    obtain ⟨hnode, hrest⟩ := hvoid
    cases node with
    | element child => exact congrArg (afterText && ·) (ih hrest false)
    | text string span =>
      have hne : string ≠ "" := of_decide_eq_false hnode
      rw [joinTexts, unbroken, ← ih hrest true]
      unfold joinText
      rw [if_neg hne]
      cases joinTexts rest with
      | nil => rfl
      | cons first later => cases first <;> rfl

theorem any_isVoid_gapNodes (depth : Nat) (afterText : Bool) :
    (gapNodes spaces depth afterText).any Node.isVoid = false := by
  cases afterText <;> simp [gapNodes, Node.isVoid, lineBreak]

theorem any_isVoid_withBreaks (afterText : Bool) (nodes : List Node) :
    (withBreaks spaces depth afterText nodes).any Node.isVoid = nodes.any Node.isVoid :=
  any_withBreaks any_isVoid_gapNodes afterText nodes

theorem any_isVoid_map_spaced (nodes : List Node) :
    (nodes.map (Node.spaced spaces depth)).any Node.isVoid = nodes.any Node.isVoid :=
  any_map_of_eq (fun node => by cases node <;> rfl) nodes

theorem any_isVoid_map_normal (nodes : List Node) :
    (nodes.map Node.normal).any Node.isVoid = nodes.any Node.isVoid :=
  any_map_of_eq (fun node => by cases node <;> rfl) nodes

theorem ofNodes_withBreaks_eq_empty_iff {nodes : List Node} (afterText : Bool) :
    Content.ofNodes (withBreaks spaces depth afterText (nodes.map (Node.spaced spaces (depth + 1)))) =
      .empty ↔ Content.ofNodes nodes = .empty := by
  rw [Content.ofNodes_eq_empty_iff, any_isInk_withBreaks, any_isInk_map_spaced,
    filterMap_element?_withBreaks, filterMap_element?_map_spaced, List.map_eq_nil_iff,
    Content.ofNodes_eq_empty_iff]

theorem writtenNodes_withBreaks_congr {f g : Element → Element} {children : List Element}
    (hsame : ∀ child ∈ children, (f child).written = (g child).written) (afterText : Bool) :
    writtenNodes (withBreaks spaces depth afterText (children.map fun child => .element (f child))) =
      writtenNodes
        (withBreaks spaces depth afterText (children.map fun child => .element (g child))) := by
  induction children generalizing afterText with
  | nil => rfl
  | cons child rest ih =>
    obtain ⟨hchild, hrest⟩ := List.forall_mem_cons.mp hsame
    rw [List.map_cons, List.map_cons, withBreaks, withBreaks, writtenNodes_append,
      writtenNodes_append, writtenNodes_element, writtenNodes_element, hchild, ih hrest]

theorem element_mem_withBreaks {afterText : Bool} {nodes : List Node} {child : Element}
    (hmem : .element child ∈ withBreaks spaces depth afterText
      (nodes.map (Node.spaced spaces (depth + 1)))) :
    ∃ own, .element own ∈ nodes ∧ own.spaced spaces (depth + 1) = child := by
  have hchild : child ∈ (withBreaks spaces depth afterText
      (nodes.map (Node.spaced spaces (depth + 1)))).filterMap Node.element? :=
    List.mem_filterMap.mpr ⟨_, hmem, rfl⟩
  rw [filterMap_element?_withBreaks, filterMap_element?_map_spaced, List.mem_map] at hchild
  obtain ⟨own, hown, hspaced⟩ := hchild
  obtain ⟨node, hnode, helement⟩ := List.mem_filterMap.mp hown
  cases node with
  | element other =>
    cases helement
    exact ⟨own, hnode, hspaced⟩
  | text string span => cases helement

/-- The element is written at `depth` as it was when its normal form with line breaks is. -/
def Element.Stays (spaces depth : Nat) (element : Element) : Prop :=
  ((element.spaced spaces depth).normal.spaced spaces depth).written =
    (element.spaced spaces depth).written

section

variable {nodes : List Node}

/-- Line breaks next to ink are text, and no more are put there. -/
theorem writtenNodes_again_of_ink (hink : nodes.any Node.isInk = true)
    (hvoid : nodes.any Node.isVoid = false)
    (hstays : ∀ child, .element child ∈ nodes → child.Stays spaces (depth + 1)) :
    writtenNodes (withBreaks spaces depth false ((Content.ofNodes (joinTexts
        ((withBreaks spaces depth false (nodes.map (Node.spaced spaces (depth + 1)))).map
          Node.normal))).nodes.map (Node.spaced spaces (depth + 1)))) =
      writtenNodes (withBreaks spaces depth false (nodes.map (Node.spaced spaces (depth + 1)))) := by
  generalize hbroken : withBreaks spaces depth false (nodes.map (Node.spaced spaces (depth + 1))) =
    broken
  have hinkBroken : (joinTexts (broken.map Node.normal)).any Node.isInk = true := by
    rwa [any_isInk_joinTexts, any_isInk_map_normal, ← hbroken, any_isInk_withBreaks,
      any_isInk_map_spaced]
  have hvoidBroken : (broken.map Node.normal).any Node.isVoid = false := by
    rwa [any_isVoid_map_normal, ← hbroken, any_isVoid_withBreaks, any_isVoid_map_spaced]
  have hunbroken : unbroken false (joinTexts (broken.map Node.normal)) = true := by
    rw [unbroken_joinTexts hvoidBroken, unbroken_map_normal, ← hbroken, unbroken_withBreaks]
  rw [Content.ofNodes_of_ink hinkBroken, Content.nodes_classify,
    withBreaks_of_unbroken (by rwa [unbroken_map_spaced]),
    joinTexts_map (fun _ _ => rfl) (fun _ => rfl), writtenNodes_joinTexts, List.map_map]
  conv_rhs => rw [← List.map_id broken]
  apply writtenNodes_map_congr
  intro node hmem
  cases node with
  | text string span => rfl
  | element child =>
    rw [← hbroken] at hmem
    obtain ⟨own, hown, rfl⟩ := element_mem_withBreaks hmem
    rw [Function.comp_apply, Node.normal, Node.spaced, id_eq, writtenNodes_element,
      writtenNodes_element, hstays own hown]

/-- Without ink the same line breaks are put between the same elements. -/
theorem writtenNodes_again_of_not_ink {children : List Element}
    (hstays : ∀ child ∈ children, child.Stays spaces (depth + 1)) :
    writtenNodes (withBreaks spaces depth false ((Content.ofNodes (joinTexts
        ((withBreaks spaces depth false ((children.map Node.element).map
          (Node.spaced spaces (depth + 1)))).map Node.normal))).nodes.map
            (Node.spaced spaces (depth + 1)))) =
      writtenNodes (withBreaks spaces depth false
        ((children.map Node.element).map (Node.spaced spaces (depth + 1)))) := by
  have hink : ¬(joinTexts ((withBreaks spaces depth false ((children.map Node.element).map
      (Node.spaced spaces (depth + 1)))).map Node.normal)).any Node.isInk = true := by
    rw [any_isInk_joinTexts, any_isInk_map_normal, any_isInk_withBreaks, any_isInk_map_spaced,
      any_isInk_map_element]
    exact Bool.false_ne_true
  rw [ofNodes_of_not_ink hink, Content.nodes_classify, filterMap_element?_joinTexts,
    filterMap_element?_map_normal, filterMap_element?_withBreaks, filterMap_element?_map_spaced,
    filterMap_element?_map_element]
  simp only [List.map_map]
  exact writtenNodes_withBreaks_congr hstays false

end

/-- A settled tree stays at every depth if all its texts have characters. -/
theorem Element.Settled.stays {element : Element} (hsettled : element.Settled)
    (hvoid : ¬element.HasVoid) : element.Stays spaces depth := by
  induction element using childInduction generalizing depth with
  | mk name attributes content span ih =>
    have hself : content = .ofNodes content.nodes := hsettled _ (self_mem_subtree _)
    by_cases hcontent : content = .empty
    · subst hcontent
      rfl
    have hstays : ∀ child, .element child ∈ content.nodes → child.Stays spaces (depth + 1) :=
      fun child hmem => ih child hmem (hsettled.of_child hmem) fun hchild => hvoid (hchild.of_child hmem)
    have hagain : Content.ofNodes (joinTexts ((content.spaced spaces depth).nodes.map Node.normal)) ≠
        .empty := by
      rwa [ne_eq, Content.ofNodes_normal_eq_empty_iff, Content.nodes_spaced hcontent,
        ofNodes_withBreaks_eq_empty_iff, ← hself]
    unfold Stays
    rw [spaced, normal_mk, spaced]
    apply written_congr (Content.spaced_ne_empty hagain) (Content.spaced_ne_empty hcontent)
    rw [Content.nodes_spaced hagain, Content.nodes_spaced hcontent]
    by_cases hink : content.nodes.any Node.isInk = true
    · have hnone : content.nodes.any Node.isVoid = false := by
        rw [← Bool.not_eq_true]
        exact fun hsome => hvoid ⟨_, self_mem_subtree _, hsome⟩
      exact writtenNodes_again_of_ink hink hnone hstays
    · rw [Content.nodes_of_not_ink hself hink]
      apply writtenNodes_again_of_not_ink
      exact fun child hmem => hstays child (Content.mem_children.mp hmem)

/-! ### Documents -/

theorem Forms.settled {start : Nat} {own : List Piece} {element : Element}
    (hforms : Forms start own element) : element.Settled := by
  intro inner hinner
  obtain ⟨before, part, after, rfl, hpart⟩ := hforms.exists_own hinner
  cases hpart with
  | emptyTag => rfl
  | tags => exact (Content.isProper_ofNodes _).ofNodes_nodes.symm

/-- Only an empty section is a text without characters. -/
theorem Forms.section_mem_of_hasVoid {start : Nat} {own : List Piece} {element : Element}
    (hforms : Forms start own element) (hcut : WellCut own) (hvoid : element.HasVoid) :
    .markup "![CDATA[]]".toList ∈ own := by
  obtain ⟨inner, hinner, hnodes⟩ := hvoid
  obtain ⟨before, part, after, rfl, hpart⟩ := hforms.exists_own hinner
  have hpartCut : WellCut part := hcut.stretch ⟨before, after, rfl⟩
  obtain ⟨node, hmem, hnode⟩ := List.any_eq_true.mp hnodes
  cases node with
  | element child => cases hnode
  | text string span =>
    obtain rfl : string = "" := of_decide_eq_true hnode
    obtain ⟨front, piece, back, rfl, -, hpiece⟩ := hpart.exists_text hpartCut hmem
    rcases hpiece with ⟨raw, rfl, hread⟩ | rfl
    · have hwhole := hpartCut.whole (.text raw) (by simp)
      exact absurd (unescape_eq_ok_nil_iff.mp hread) hwhole.1
    · have hsection : "![CDATA[]]".toList = cdataStart ++ "".toList ++ [']', ']'] := by decide
      rw [hsection]
      simp

theorem render_compact_congr {left right : Element} (hsame : left.written = right.written) :
    render left .compact = render right .compact := by
  unfold Element.written at hsame
  unfold render Layout.parts
  simp only [List.flatten_cons, List.flatten_append, List.cons_append, ← List.flatMap_def, hsame]

/-- The characters of a tree with its line breaks do not change if its texts have some. -/
theorem Element.written_laidOut_again {root : Element} (hsettled : root.Settled) {layout : Layout}
    (hlayout : layout = .compact ∨ ¬root.HasVoid) :
    ((root.laidOut layout).normal.laidOut layout).written = (root.laidOut layout).written := by
  cases layout with
  | compact => exact written_normal hsettled
  | indented spaces =>
    have hvoid : ¬root.HasVoid := hlayout.resolve_left nofun
    exact hsettled.stays hvoid

/-- A document that was read is written as it was when it is read again: without line breaks always, and
with them if its texts have characters, as all have but an empty section. -/
theorem render_parse_render {source : String} {document : Document}
    (hparse : parse source = .ok document) (hnames : document.root.HasNames) :
    (∀ layout, ∃ again, parse (render document.root layout) = .ok again ∧
      (layout = .compact ∨ ¬document.root.HasVoid →
        render again.root layout = render document.root layout)) ∧
      (document.root.HasVoid → .markup "![CDATA[]]".toList ∈ pieces (dropMark source.toList)) := by
  have hroot := parseRoot_of_parse hparse
  have hcut := wellCut_of_parseRoot hroot
  obtain ⟨before, own, after, hpieces, -, hforms⟩ := parseRoot_eq_ok_iff.mp hroot
  constructor
  · intro layout
    have hlegible := legible_of_hasNames hparse hnames
    obtain ⟨again, hagain, hbare⟩ := exists_parse_render_laidOut hlegible layout
    refine ⟨again, hagain, ?_⟩
    intro hlayout
    have hrender (root : Element) : render root.bare layout = render root layout := by
      unfold render
      rw [layout.parts_bare]
    calc
      render again.root layout = render (document.root.laidOut layout).normal layout := by
        rw [← hrender, hbare, hrender]
      _ = render ((document.root.laidOut layout).normal.laidOut layout) .compact :=
        render_eq_render_compact _ layout
      _ = render (document.root.laidOut layout) .compact :=
        render_compact_congr (Element.written_laidOut_again hforms.settled hlayout)
      _ = render document.root layout := (render_eq_render_compact _ layout).symm
  · intro hvoid
    rw [hpieces] at hcut ⊢
    have hown : WellCut own := hcut.stretch ⟨before, after, by simp⟩
    have hsection := hforms.section_mem_of_hasVoid hown hvoid
    exact List.mem_append_right _ (List.mem_append_left _ hsection)

/-- An indented copy gets texts in `p` and layout in `a`; each is written again. -/
theorem render_parse_render_indented :
    ∃ document, parse "<a k='&#9;'> <p>x<b/><![CDATA[ <]]></p><q> </q></a>" = .ok document ∧
      document.root.HasNames ∧ ¬document.root.HasVoid ∧
        ∃ again, parse (render document.root (.indented 2)) = .ok again ∧
          render again.root (.indented 2) = render document.root (.indented 2) := by
  have hread : (parse "<a k='&#9;'> <p>x<b/><![CDATA[ <]]></p><q> </q></a>").toOption.map
      (fun document => decide (document.root.HasNames ∧ ¬document.root.HasVoid)) = some true := by
    decide +kernel
  obtain ⟨document, hdocument, hchecked⟩ := Option.map_eq_some_iff.mp hread
  obtain ⟨hnames, hvoid⟩ := of_decide_eq_true hchecked
  have hparse := toOption_eq_some_iff.mp hdocument
  obtain ⟨again, hagain, hsame⟩ := (render_parse_render hparse hnames).1 (.indented 2)
  exact ⟨document, hparse, hnames, hvoid, again, hagain, hsame (.inr hvoid)⟩

end CompatChanges.Xml
