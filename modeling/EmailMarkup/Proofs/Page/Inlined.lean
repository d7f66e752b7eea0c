import EmailMarkup.Proofs.Compiler
import EmailMarkup.Proofs.Html.Bytes
import EmailMarkup.Proofs.Html.Comments
/-!
# Comments of compiled mails

Inlining rewrites start tags, but two replacements behind it go over the whole page: an empty style loses its value, and
a slash at the end of a tag goes. So the comments of a page stand in the compiled mail in their order, but with these two
replacements made in them (`compile_keeps_comments`). A comment that has neither text is kept as it is.
-/
namespace EmailMarkup

open EmailMarkup.Html
open EmailMarkup.Text

namespace Html

/-- A text that begins and ends as a tag does. -/
def Framed (k : List Char) : Prop := k.head? = some '<' ∧ k.getLast? = some '>'

theorem framed_of_mem_comments {s k : List Char} (h : k ∈ comments s) : Framed k := by
  induction s using comments_induction with
  | none s hk =>
    rw [(comments_of_none hk).1] at h
    cases h
  | some s k' rest hk ih =>
    rw [(comments_of_some hk).1, List.mem_cons] at h
    rcases h with rfl | h
    · obtain ⟨gap, content, -, -, rfl, -⟩ := comment?_eq_some hk
      exact ⟨rfl, by simp [commentClose, List.getLast?_append]⟩
    · exact ih h

theorem Document.framed_of_mem_comments {d : Document} {k : List Char} (h : k ∈ d.comments) : Framed k := by
  obtain ⟨p, -, hp⟩ := List.mem_flatMap.1 h
  cases p with
  | start tag => cases hp
  | stop name text => exact Html.framed_of_mem_comments hp
  | other text => exact Html.framed_of_mem_comments hp

/-! ## Replacements -/

section

variable {pat : List Char} (hopen : '<' ∉ pat) (hclose : '>' ∉ pat.dropLast)

include hopen hclose

/-- A replacement that cannot begin or go on at the border of a tag is made in each text for itself. -/
theorem InOrder.replaceAll (hpat : pat ≠ []) (new : List Char) {ks : List (List Char)} {s : List Char} (h : InOrder ks s)
    (hks : ∀ k ∈ ks, Framed k) : InOrder (ks.map (replaceAll pat new)) (replaceAll pat new s) := by
  induction h with
  | nil => exact .nil
  | @cons k ks rest gap h ih =>
    obtain ⟨hhead, hlast⟩ := hks k (by simp)
    have hbefore : Apart pat gap (k ++ rest) := .of_head? (by simp [hhead]) hopen
    have hbehind : Apart pat k rest := .of_getLast? hlast hclose
    rw [hbefore.replaceAll_eq hpat, hbehind.replaceAll_eq hpat]
    exact .cons _ (ih fun k hk => hks k (by simp [hk]))

end

theorem Framed.replaceAll {pat : List Char} (hpat : pat ≠ []) (hopen : '<' ∉ pat) (hclose : '>' ∉ pat) (new : List Char)
    {k : List Char} (h : Framed k) : Framed (replaceAll pat new k) := by
  have hcons {q : Char} (hq : q ∉ pat) (r : List Char) :
      Text.replaceAll pat new (q :: r) = q :: Text.replaceAll pat new r := by
    obtain ⟨p, pat, rfl⟩ := List.exists_cons_of_ne_nil hpat
    have hne : p ≠ q := fun he => hq (by simp [he])
    exact replaceAll_cons (by simp [startsWith, strip?, hne]) new
  obtain ⟨hhead, hlast⟩ := h
  constructor
  · obtain ⟨r, rfl⟩ := List.head?_eq_some_iff.1 hhead
    rw [hcons hopen]
    rfl
  · obtain ⟨r, rfl⟩ := List.getLast?_eq_some_iff.1 hlast
    have hapart : Apart pat r ['>'] := .of_head? rfl hclose
    rw [hapart.replaceAll_eq hpat, hcons hclose]
    exact List.getLast?_concat

/-- A document is its own text, edited in nothing. -/
theorem Document.edit_text (html : List Char) : (Document.ofChars html).edit (fun _ tag => tag.text) = html := by
  have hedit (ps : List Piece) (n : Nat) : Document.editFrom (fun _ tag => tag.text) n ps = textOf ps := by
    induction ps generalizing n with
    | nil => rfl
    | cons p ps ih =>
      cases p with
      | start tag => rw [Document.editFrom, ih, textOf_cons, Piece.text]
      | stop name text => exact congrArg (text ++ ·) (ih n)
      | other text => exact congrArg (text ++ ·) (ih n)
  rw [Document.edit, hedit]
  exact (scans_piecesFrom (Nat.le_refl html.length)).textOf_eq

theorem Document.inOrder_comments (html : List Char) : InOrder (Document.ofChars html).comments html := by
  have hall := inOrder_edit (Document.ofChars html) fun _ tag => tag.text
  rwa [Document.edit_text] at hall

/-- With no rules nothing is inlined. -/
theorem applyRules_nil (html : List Char) : applyRules [] html = html := by
  have hstyles (f : Forest) (ids : List Nat) : newStyles [] f ids = [] := by
    induction ids with
    | nil => rfl
    | cons id ids ih => exact ih
  have hwrite : writeStyled [] = fun _ tag => tag.text := rfl
  rw [applyRules, hstyles, hwrite, Document.edit_text]

end Html

namespace Compiler

def emptyStyle : List Char := [' ', 's', 't', 'y', 'l', 'e', '=', '"', '"']

def slashEnd : List Char := [' ', '/', '>']

def bareStyle : List Char := [' ', 's', 't', 'y', 'l', 'e']

/-- A text with what is replaced in pages after inlining. -/
def tidied (s : List Char) : List Char := replaceAll slashEnd ['>'] (replaceAll emptyStyle bareStyle s)

/-- What becomes of a comment of a page. -/
def settled (styles : List String) (k : List Char) : List Char := if styles.isEmpty then k else tidied k

theorem tidied_eq_self_iff {k : List Char} :
    tidied k = k ↔ occurs emptyStyle k = false ∧ occurs slashEnd k = false := by
  constructor
  · intro h
    -- Both replacements make a text shorter wherever they find something.
    obtain ⟨hle, hlt⟩ := length_replaceAll (show bareStyle.length < emptyStyle.length by decide) k
    obtain ⟨hle', hlt'⟩ := length_replaceAll (show ['>'].length < slashEnd.length by decide)
      (replaceAll emptyStyle bareStyle k)
    have hlength := congrArg List.length h
    rw [tidied] at hlength
    have hstyle : occurs emptyStyle k = false := by
      rw [Bool.eq_false_iff]
      intro hoccurs
      have := hlt hoccurs
      omega
    rw [replaceAll_of_not_occurs hstyle] at hlt' hlength
    refine ⟨hstyle, Bool.eq_false_iff.2 fun hoccurs => ?_⟩
    have := hlt' hoccurs
    omega
  · rintro ⟨hstyle, hslash⟩
    rw [tidied, replaceAll_of_not_occurs hstyle, replaceAll_of_not_occurs hslash]

theorem settled_eq_self_iff {styles : List String} {k : List Char} :
    settled styles k = k ↔ styles = [] ∨ (occurs emptyStyle k = false ∧ occurs slashEnd k = false) := by
  cases styles with
  | nil => simp [settled]
  | cons css styles => simpa [settled] using tidied_eq_self_iff

theorem inOrder_tidied {ks : List (List Char)} {s : List Char} (h : InOrder ks s) (hks : ∀ k ∈ ks, Framed k) :
    InOrder (ks.map tidied) (tidied s) := by
  have hstyles : InOrder (ks.map (replaceAll emptyStyle bareStyle)) (replaceAll emptyStyle bareStyle s) :=
    h.replaceAll (by decide) (by decide) (by decide) bareStyle hks
  have hframed : ∀ k ∈ ks.map (replaceAll emptyStyle bareStyle), Framed k := by
    intro k hk
    obtain ⟨k₀, hk₀, rfl⟩ := List.mem_map.1 hk
    exact (hks k₀ hk₀).replaceAll (by decide) (by decide) (by decide) bareStyle
  have hslashes : InOrder ((ks.map (replaceAll emptyStyle bareStyle)).map (replaceAll slashEnd ['>'])) (tidied s) :=
    hstyles.replaceAll (by decide) (by decide) (by decide) ['>'] hframed
  rwa [List.map_map] at hslashes

theorem tidied_append {k : List Char} (hk : Framed k) (s : List Char) : tidied (k ++ s) = tidied k ++ tidied s := by
  have hstyles : Apart emptyStyle k s := .of_getLast? hk.2 (by decide)
  have hslashes : Apart slashEnd (replaceAll emptyStyle bareStyle k) (replaceAll emptyStyle bareStyle s) :=
    .of_getLast? (hk.replaceAll (by decide) (by decide) (by decide) bareStyle).2 (by decide)
  rw [tidied, hstyles.replaceAll_eq (by decide), hslashes.replaceAll_eq (by decide), tidied, tidied]

theorem not_mem_tidied {c : Char} (hc : c ∉ '>' :: bareStyle) {s : List Char} (hs : c ∉ s) : c ∉ tidied s := by
  rw [List.mem_cons, not_or] at hc
  exact not_mem_replaceAll (by simpa using hc.1) (not_mem_replaceAll hc.2 hs)

theorem toList_inlineStyles (css : String) (styles : List String) (html : String) :
    (inlineStyles (css :: styles) html).toList =
      tidied (inlineAdditional html ("\n".intercalate (css :: styles) ++ "\n")).toList := by
  simp only [inlineStyles, List.isEmpty_cons, Bool.false_eq_true, if_false, replace, String.toList_ofList]
  rfl

example : inlineStyles ["p\x7bcolor:red\x7d"] "<!--[if mso | IE]><v:fill src=\"b.png\" /><![endif]-->" =
    "<!--[if mso | IE]><v:fill src=\"b.png\"><![endif]-->" := by
  decide +kernel

/-- Inlining keeps the comments of the pieces of a page, but for the replacements. -/
theorem inOrder_inlineStyles (styles : List String) (html : String) :
    InOrder ((Document.parse html).comments.map (settled styles)) (inlineStyles styles html).toList := by
  cases styles with
  | nil =>
    have hsettled : settled [] = id := rfl
    rw [hsettled, List.map_id]
    exact Document.inOrder_comments html.toList
  | cons css styles =>
    have hsettled : settled (css :: styles) = tidied := rfl
    rw [hsettled, toList_inlineStyles, inlineAdditional, String.toList_ofList]
    exact inOrder_tidied (inOrder_edit _ _) fun k hk => Document.framed_of_mem_comments hk

variable {m : Type → Type}

/-- The page of a rendered body, before styles are inlined. -/
def assembled (c : Configuration m) (h : Head) (body : String) : String :=
  Page.document h c.language c.direction
    (String.ofList (Page.addAttributes h.rules.html (Page.joinConditionals body.toList)))

/-- The comments of the assembled page stand in the compiled mail, in their order and with what is replaced in them, if
styles are inlined: those of the pieces that are no start tags, and these are all if each piece closes the comments that
it opens. Without styles to inline all comments are kept as they are. -/
theorem compile_keeps_comments {σ : Type} {c : Configuration (StateM σ)} {source : String} {s s' : σ} {out : Output}
    (hrun : (compile c source).run.run s = (.ok out, s')) :
    ∃ t body h ds, (expanded c source).run.run s = (.ok t, s') ∧ renderTemplate c t = .ok (body, h, ds) ∧
      let html := assembled c h body
      let styles := h.styles.inlineStyles
      InOrder ((Document.parse html).comments.map (settled styles)) out.html.toList ∧
      (styles = [] ∨ (Document.parse html).closesComments = true →
        InOrder ((comments html.toList).map (settled styles)) out.html.toList) ∧
      ∀ k, settled styles k = k ↔ styles = [] ∨ (occurs emptyStyle k = false ∧ occurs slashEnd k = false) := by
  obtain ⟨t, ht, hf⟩ := run_compile_eq_ok.1 hrun
  obtain ⟨body, h, ds, hr, rfl⟩ := finish_eq_ok.1 hf
  have hpieces := inOrder_inlineStyles h.styles.inlineStyles (assembled c h body)
  refine ⟨t, body, h, ds, ht, hr, hpieces, ?_, fun k => settled_eq_self_iff⟩
  rintro (hstyles | hcloses)
  · have hpage : page c h body = assembled c h body := by
      unfold page
      rw [hstyles]
      rfl
    have hsettled : settled [] = id := rfl
    rw [hstyles, hsettled, List.map_id]
    exact hpage ▸ Html.inOrder_comments _
  · rwa [← Document.comments_ofChars hcloses]

/-- A mail with a style to inline and a wrapper with an image behind it, for which Outlook is given a rectangle in a
comment. -/
theorem compile_keeps_comments_image :
    let c : Configuration (StateM Unit) := {}
    let source := "<mjml><mj-head><mj-style inline=\"inline\">p\x7bcolor:red\x7d</mj-style></mj-head>" ++
      "<mj-body><mj-wrapper background-url=\"b.png\"></mj-wrapper></mj-body></mjml>"
    ∃ out t body h ds, (compile c source).run.run () = (.ok out, ()) ∧ (expanded c source).run.run () = (.ok t, ()) ∧
      renderTemplate c t = .ok (body, h, ds) ∧ h.styles.inlineStyles = ["p\x7bcolor:red\x7d"] ∧
      InOrder ((Document.parse (assembled c h body)).comments.map tidied) out.html.toList := by
  intro c source
  obtain ⟨out, hrun, -⟩ := exists_of_map_eq (f := fun _ => ()) (v := ()) (r := (compile c source).run.run ())
    (by decide +kernel)
  obtain ⟨t, body, h, ds, ht, hr, hpieces, -⟩ := compile_keeps_comments hrun
  have hstyles : (((expanded c source).run.run ()).1.toOption.bind fun t =>
      (renderTemplate c t).toOption.map fun r => r.2.1.styles.inlineStyles) = some ["p\x7bcolor:red\x7d"] := by
    decide +kernel
  rw [ht] at hstyles
  simp only [Except.toOption, Option.bind_some, hr, Option.map_some, Option.some.injEq] at hstyles
  have hsettled : settled ["p\x7bcolor:red\x7d"] = tidied := rfl
  rw [hstyles, hsettled] at hpieces
  exact ⟨out, t, body, h, ds, hrun, ht, hr, hstyles, hpieces⟩

def markedHead : Head where
  metadata := { fileStart := ["<!--§ /> -->"] }
  styles := { inlineStyles := ["x"] }

/-- What stands before the page comes first. -/
theorem document_fileStart (h : Head) (language : String) (direction : Direction) (body : String) :
    Page.document h language direction body = String.join (h.metadata.fileStart.map fun content => content ++ "\n") ++
      Page.document { h with metadata := { h.metadata with fileStart := [] } } language direction body := by
  have hempty : String.join ([].map fun content : String => content ++ "\n") = "" := rfl
  rw [Page.document, Page.document, hempty, String.empty_append]
  simp only [String.append_assoc]
  rfl

/-- The comment stands first, and its mark nowhere else. -/
theorem assembled_marked : ∃ rest, (assembled ({} : Configuration (StateM Unit)) markedHead "").toList =
    "<!--§ /> -->".toList ++ rest ∧ '§' ∉ rest := by
  let c : Configuration (StateM Unit) := {}
  let bare : Head := { markedHead with metadata := {} }
  have hascii : (Page.document bare c.language c.direction "").toByteArray.data.toList.all (fun b => b.toNat < 128) = true := by
    decide +kernel
  have hbody : String.ofList (Page.addAttributes markedHead.rules.html (Page.joinConditionals "".toList)) = "" := by
    decide +kernel
  refine ⟨'\n' :: (Page.document bare c.language c.direction "").toList, ?_, ?_⟩
  · have hstart : String.join (markedHead.metadata.fileStart.map fun content => content ++ "\n") = "<!--§ /> -->" ++ "\n" := by
      decide +kernel
    have hbare : Page.document { markedHead with metadata := { markedHead.metadata with fileStart := [] } } c.language
      c.direction "" = Page.document bare c.language c.direction "" := rfl
    rw [assembled, hbody, document_fileStart, hstart, hbare, String.toList_append, String.toList_append, List.append_assoc]
    rfl
  · rw [List.mem_cons, not_or]
    exact ⟨by decide, not_mem_of_ascii hascii (by decide)⟩

theorem page_marked {rest : List Char} (h : (assembled ({} : Configuration (StateM Unit)) markedHead "").toList =
    "<!--§ /> -->".toList ++ rest) :
    (page ({} : Configuration (StateM Unit)) markedHead "").toList = "<!--§> -->".toList ++ tidied rest := by
  let c : Configuration (StateM Unit) := {}
  have hrules : (Style.Stylesheet.parse ("\n".intercalate ["x"] ++ "\n")).rules.filterMap inlineRule? = [] := by
    decide +kernel
  have hinlined :
      inlineAdditional (assembled c markedHead "") ("\n".intercalate ["x"] ++ "\n") = assembled c markedHead "" := by
    rw [inlineAdditional, hrules, applyRules_nil, String.ofList_toList]
  have htidied : tidied "<!--§ /> -->".toList = "<!--§> -->".toList := by decide +kernel
  have hpage : page c markedHead "" = inlineStyles ["x"] (assembled c markedHead "") := rfl
  rw [hpage, toList_inlineStyles, hinlined, h, tidied_append (by constructor <;> decide +kernel), htidied]

/-- The comment as it was written is not there, because what follows its mark is not. -/
theorem not_inOrder_marked {rest : List Char} (h : '§' ∉ rest) (others : List (List Char)) :
    ¬InOrder ("<!--§ /> -->".toList :: others) ("<!--§> -->".toList ++ rest) := by
  intro hin
  generalize hout : "<!--§> -->".toList ++ rest = out at hin
  cases hin with
  | @cons _ _ behind gap _ =>
    have hkept : "<!--§> -->".toList = ['<', '!', '-', '-'] ++ '§' :: ['>', ' ', '-', '-', '>'] := by decide +kernel
    have hwritten : "<!--§ /> -->".toList = ['<', '!', '-', '-'] ++ '§' :: [' ', '/', '>', ' ', '-', '-', '>'] := by
      decide +kernel
    rw [hkept, hwritten] at hout
    have hsplit : ['<', '!', '-', '-'] ++ '§' :: (['>', ' ', '-', '-', '>'] ++ rest) =
        (gap ++ ['<', '!', '-', '-']) ++ '§' :: ([' ', '/', '>', ' ', '-', '-', '>'] ++ behind) := by simpa using hout
    have htail : '§' ∉ ['>', ' ', '-', '-', '>'] ++ rest := by
      rw [List.mem_append, not_or]
      exact ⟨by decide, h⟩
    have hbehind := (eq_of_split (by decide) htail hsplit).2
    cases (List.cons.inj hbehind).1

/-- A comment before the page loses a slash, and it is not there any more as it was written. -/
theorem compile_changes_comments :
    let c : Configuration (StateM Unit) := {}
    let source := "<mjml><mj-head><mj-style inline=\"inline\">x</mj-style>" ++
      "<mj-raw position=\"file-start\"><!--§ /> --></mj-raw></mj-head></mjml>"
    ∃ out t body h ds, (compile c source).run.run () = (.ok out, ()) ∧ (expanded c source).run.run () = (.ok t, ()) ∧
      renderTemplate c t = .ok (body, h, ds) ∧ ¬InOrder (comments (assembled c h body).toList) out.html.toList := by
  intro c source
  have hrendered : (((expanded c source).run.run ()).1.toOption.bind fun t =>
      (renderTemplate c t).toOption.map fun r => (r.1, r.2.1)) = some ("", markedHead) := by
    decide +kernel
  obtain ⟨t, ds, ht, hr⟩ := exists_of_rendered hrendered
  refine ⟨_, t, "", markedHead, ds, run_compile_eq_ok.2 ⟨t, ht, finish_eq_ok.2 ⟨_, _, _, hr, rfl⟩⟩, ht, hr, fun hin => ?_⟩
  obtain ⟨rest, hhtml, hrest⟩ := assembled_marked
  have hcomment : comment? "<!--§ /> -->".toList = some ("<!--§ /> -->".toList, []) := by decide +kernel
  have hcomments := (comments_of_some (comment?_append hcomment rest)).1
  rw [hhtml, hcomments, page_marked hhtml] at hin
  exact not_inOrder_marked (not_mem_tidied (by decide) hrest) _ hin

end Compiler

end EmailMarkup
