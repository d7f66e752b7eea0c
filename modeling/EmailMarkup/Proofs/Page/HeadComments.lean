import EmailMarkup.Proofs.Head.Styles
import EmailMarkup.Proofs.Page.Inlined
/-!
# Comments of the head

The comments of a template's head are written into the head of the page, without pairs of dashes. Taking the pairs out
from left to right leaves one dash of an odd run and none of an even one (`halved_replaceAll`), so that no pair is left
and none comes about (`Halved.no_pair`). What is written is therefore one comment, whatever follows it
(`comment?_commentText`).
-/
namespace EmailMarkup

open EmailMarkup.Html
open EmailMarkup.Text

/-! ## Runs of dashes -/

namespace Text

/-- The second text is the first with one dash for each odd run of dashes and none for each even one. -/
inductive Halved : List Char → List Char → Prop
  | nil : Halved [] []
  | other {c : Char} {s t : List Char} (hc : c ≠ '-') (h : Halved s t) : Halved (c :: s) (c :: t)
  | run {s t : List Char} (n : Nat) (hs : s.head? ≠ some '-') (h : Halved s t) :
      Halved (List.replicate n '-' ++ s) (List.replicate (n % 2) '-' ++ t)

namespace Halved

variable {s t : List Char}

/-- Two more dashes in front make the first run longer, or they are a run of their own. -/
theorem pair (h : Halved s t) : Halved ('-' :: '-' :: s) t := by
  cases h with
  | nil => exact run 2 (by simp) nil
  | other hc h => exact run 2 (by simpa using hc) (other hc h)
  | @run s t n hs h =>
    have hlonger := run (n + 2) hs h
    rwa [Nat.add_mod_right] at hlonger

theorem single (hs : s.head? ≠ some '-') (h : Halved s t) : Halved ('-' :: s) ('-' :: t) := run 1 hs h

/-- A dash in front of what is left was in front of the text, so a dash that is left of a run has none behind it. -/
theorem no_pair_and_head (h : Halved s t) : ¬['-', '-'] <:+: t ∧ (t.head? = some '-' → s.head? = some '-') := by
  induction h with
  | nil => exact ⟨by simp, by simp⟩
  | @other c s t hc h ih =>
    refine ⟨fun hpair => ?_, by simp⟩
    rcases List.infix_cons_iff.1 hpair with hfront | hpair
    · exact hc (List.cons_prefix_cons.1 hfront).1.symm
    · exact ih.1 hpair
  | @run s t n hs h ih =>
    have hnot : t.head? ≠ some '-' := fun ht => hs (ih.2 ht)
    rcases Nat.mod_two_eq_zero_or_one n with hn | hn
    · rw [hn]
      exact ⟨ih.1, fun ht => absurd ht hnot⟩
    · rw [hn]
      obtain ⟨m, rfl⟩ : ∃ m, n = m + 1 := ⟨n - 1, by omega⟩
      refine ⟨fun hpair => ?_, fun _ => rfl⟩
      rcases List.infix_cons_iff.1 hpair with hfront | hpair
      · obtain ⟨r, rfl⟩ := (List.cons_prefix_cons.1 hfront).2
        exact hnot rfl
      · exact ih.1 hpair

theorem no_pair (h : Halved s t) : ¬['-', '-'] <:+: t := h.no_pair_and_head.1

end Halved

/-- One pass over the text takes the dashes of a run in pairs. -/
theorem halved_replaceAll (s : List Char) : Halved s (replaceAll ['-', '-'] [] s) := by
  refine substitute_induction (motive := Halved) (takesPiece_replaceAll (by simp) []) .nil ?_ ?_ s
  · intro c s hnone h
    by_cases hc : c = '-'
    · subst hc
      refine h.single fun hs => ?_
      obtain ⟨r, rfl⟩ := List.head?_eq_some_iff.1 hs
      cases hnone
    · exact h.other hc
  · intro piece rest out _ hstep h
    obtain ⟨rfl, rfl⟩ := replaceStep_eq_some hstep
    exact h.pair

end Text

/-! ## Reading the comments -/

namespace Head

/-- The comment that a child of a head is, without blanks around it, unless it is blank. -/
def commentOf? : Node → Option String
  | .comment content => if trim content = "" then none else some (trim content)
  | _ => none

theorem readComponent_comments (b : Builtin) (n : Node) (r : Reading) :
    (readComponent b n r).1.metadata.comments = r.1.metadata.comments := by
  unfold readComponent
  split
  · unfold readTitle
    split <;> rfl
  · unfold readPreview
    split <;> rfl
  · unfold readBreakpoint
    split
    · simp only [Reading.metadata, Metadata.setBreakpoint]
      split <;> rfl
    · rfl
  · unfold readFont
    split
    · split <;> rfl
    · rfl
  · unfold readStyle
    extract_lets css
    split <;> rfl
  · refine foldl_keeps (v := fun r : Reading => r.1.metadata.comments) (fun r n => ?_) _ r
    unfold readRule
    split
    · rfl
    · split
      · split <;> rfl
      · rfl
  · refine foldl_keeps (v := fun r : Reading => r.1.metadata.comments) (fun r n => ?_) _ r
    unfold readHtmlRule
    split
    · rfl
    · extract_lets found
      split <;> rfl
  · unfold readRaw
    split
    · simp only [Reading.metadata, Metadata.addFileStart]
      split <;> rfl
    · simp only [Reading.metadata, Metadata.addRaw]
      split <;> rfl
  · rfl
  · rfl

theorem readChild_comments (registry : Registry) (r : Reading) (n : Node) :
    (readChild registry r n).1.metadata.comments = r.1.metadata.comments ++ (commentOf? n).toList := by
  cases n with
  | comment content =>
    rw [readChild, commentOf?]
    split
    · rename_i hblank
      rw [if_pos hblank, Option.toList_none, List.append_nil]
    · rename_i hblank
      rw [if_neg hblank]
      rfl
  | element tag attributes children =>
    rw [readChild, commentOf?, Option.toList_none, List.append_nil]
    · split
      · split
        · exact readComponent_comments _ _ r
        · rfl
      · rfl
      · rfl
    · simp
  | text content => exact (List.append_nil _).symm
  | cdata content => exact (List.append_nil _).symm

theorem read_comments (registry : Registry) (head : Node) (ds : Diagnostics) :
    (read registry head ds).1.metadata.comments = head.children.filterMap commentOf? := by
  have hrun (children : List Node) (r : Reading) : (children.foldl (readChild registry) r).1.metadata.comments =
      r.1.metadata.comments ++ children.filterMap commentOf? := by
    induction children generalizing r with
    | nil => exact (List.append_nil _).symm
    | cons n children ih =>
      rw [List.foldl_cons, ih, readChild_comments, List.append_assoc]
      cases hn : commentOf? n <;> simp [hn]
  exact hrun head.children ({}, ds)

end Head

/-! ## Writing them -/

namespace Page

def commentText (k : String) : String := "<!-- " ++ replace k "--" "" ++ " -->"

theorem headText_comments (h : Head) : ∃ before, headText h =
    before ++ String.join (h.metadata.comments.map fun k => Render.line 2 (commentText k)) ++
      String.join (h.metadata.raw.map fun markup => markup ++ "\n") ++ "</head>\n\n" :=
  ⟨_, rfl⟩

/-- The comments are followed by the raw markup and the end of the head. -/
theorem document_comments (h : Head) (language : String) (direction : Direction) (body : String) :
    ∃ before after, document h language direction body =
      before ++ String.join (h.metadata.comments.map fun k => Render.line 2 (commentText k)) ++
        (String.join (h.metadata.raw.map fun markup => markup ++ "\n") ++ ("</head>\n\n" ++ after)) := by
  obtain ⟨before, hbefore⟩ := headText_comments h
  rw [document, hbefore]
  refine ⟨String.join (h.metadata.fileStart.map fun content => content ++ "\n") ++ opening language direction ++ before, ?_⟩
  simp only [String.append_assoc]
  exact ⟨_, rfl⟩

theorem not_occurs_commentClose {x : List Char} (h : ¬['-', '-'] <:+: x) : occurs commentClose x = false := by
  rw [← Bool.not_eq_true, occurs_iff]
  exact fun hclose => h (List.IsInfix.trans ⟨[], ['>'], rfl⟩ hclose)

/-- With blanks around it, too, a text without pairs of dashes has none. -/
theorem no_pair_between {x : List Char} (h : ¬['-', '-'] <:+: x) : ¬['-', '-'] <:+: ' ' :: (x ++ [' ']) := by
  intro hpair
  rcases List.infix_cons_iff.1 hpair with hfront | hpair
  · exact absurd (List.cons_prefix_cons.1 hfront).1 (by decide)
  · rcases List.infix_concat_iff.1 hpair with hback | hpair
    · have hlast := List.IsSuffix.getLast hback (by simp)
      simp at hlast
    · exact h hpair

theorem comment?_commentText (k : String) (rest : List Char) :
    Html.comment? ((commentText k).toList ++ rest) = some ((commentText k).toList, rest) := by
  have hpair : ¬['-', '-'] <:+: replaceAll ['-', '-'] [] k.toList := (halved_replaceAll k.toList).no_pair
  generalize hx : replaceAll ['-', '-'] [] k.toList = x at hpair
  have htext : (commentText k).toList = commentOpen ++ (' ' :: (x ++ [' ']) ++ commentClose) := by
    simp [commentText, replace, commentOpen, commentClose, hx]
  have hopen (r : List Char) : cut commentOpen (commentOpen ++ r) = some ([], r) := rfl
  have hclose : cut commentClose (' ' :: (x ++ [' ']) ++ (commentClose ++ rest)) = some (' ' :: (x ++ [' ']), rest) := by
    have hapart : Apart commentClose (' ' :: (x ++ [' '])) (commentClose ++ rest) :=
      .of_getLast? (q := ' ') (by rw [← List.cons_append, List.getLast?_concat]) (by decide)
    have hhere : cut commentClose (commentClose ++ rest) = some ([], rest) := rfl
    rw [hapart.cut_eq (not_occurs_commentClose (no_pair_between hpair)), hhere]
    simp
  rw [htext, List.append_assoc, Html.comment?, hopen]
  simp only [Option.bind_eq_bind, Option.bind_some, List.append_assoc] at hclose ⊢
  rw [hclose]
  simp

end Page

namespace Compiler

variable {m : Type → Type}

def headComments (t : Template) : List String := (t.head?.elim [] Node.children).filterMap Head.commentOf?

theorem apply_comments (h : Head) (e : Render.Effect) : (Render.Effect.apply h e).metadata.comments = h.metadata.comments := by
  cases e with
  | fileStart content =>
    simp only [Render.Effect.apply, Head.Metadata.addFileStart]
    split <;> rfl
  | _ => rfl

theorem headOf_comments (h : Head) (body : Node) : (headOf h body).metadata.comments = h.metadata.comments := by
  simp only [headOf, Head.linkFonts]

theorem renderTemplate_comments {c : Configuration m} {t : Template} {html : String} {h : Head} {ds : Diagnostics}
    (hr : renderTemplate c t = .ok (html, h, ds)) : h.metadata.comments = headComments t := by
  unfold renderTemplate at hr
  extract_lets ds₀ at hr
  split at hr
  rename_i h₁ ds₁ hhead
  have hread : h₁.metadata.comments = headComments t := by
    unfold headComments
    split at hhead
    · rename_i head hsome
      have hcomments := Head.read_comments c.registry head ds₀
      rw [hhead] at hcomments
      rw [hcomments, hsome]
      rfl
    · rename_i hnone
      cases hhead
      rw [hnone]
      rfl
  split at hr
  · cases hr
    exact hread
  · extract_lets h₂ ctx at hr
    obtain ⟨⟨html', o⟩, -, hp⟩ := bind_eq_ok.1 hr
    cases hp
    have heffects := Head.foldl_keeps (v := fun h : Head => h.metadata.comments) apply_comments o.effects h₂
    exact heffects.trans ((headOf_comments h₁ _).trans hread)

/-- The skeleton of a compiled mail has the comments of the template's head in the head of the page, in their order, each
as `<!-- x -->`. What `x` is depends on the runs of dashes of the comment, and it has no pair of dashes and no end of a
comment. So what is written is read as one comment, whatever follows it. -/
theorem compile_comments_closed {σ : Type} {c : Configuration (StateM σ)} {source : String} {s s' : σ} {out : Output}
    (hrun : (compile c source).run.run s = (.ok out, s')) :
    (∃ t body h ds, (expanded c source).run.run s = (.ok t, s') ∧ renderTemplate c t = .ok (body, h, ds) ∧
      out.html = inlineStyles h.styles.inlineStyles (assembled c h body) ∧
      ∃ before after, assembled c h body =
        before ++ String.join ((headComments t).map fun k => Render.line 2 (Page.commentText k)) ++
          (String.join (h.metadata.raw.map fun markup => markup ++ "\n") ++ ("</head>\n\n" ++ after))) ∧
    ∀ k : String, (∃ x, Page.commentText k = "<!-- " ++ x ++ " -->" ∧ Halved k.toList x.toList ∧
        ¬['-', '-'] <:+: x.toList ∧ ¬commentClose <:+: x.toList) ∧
      ∀ rest, Html.comment? ((Page.commentText k).toList ++ rest) = some ((Page.commentText k).toList, rest) := by
  constructor
  · obtain ⟨t, ht, hf⟩ := run_compile_eq_ok.1 hrun
    obtain ⟨body, h, ds, hr, rfl⟩ := finish_eq_ok.1 hf
    refine ⟨t, body, h, ds, ht, hr, rfl, ?_⟩
    rw [← renderTemplate_comments hr]
    exact Page.document_comments h c.language c.direction _
  · intro k
    have hhalved : Halved k.toList (replace k "--" "").toList := by
      rw [replace, String.toList_ofList]
      exact halved_replaceAll k.toList
    refine ⟨⟨_, rfl, hhalved, hhalved.no_pair, fun hclose => ?_⟩, Page.comment?_commentText k⟩
    have hnot := Page.not_occurs_commentClose hhalved.no_pair
    rw [occurs_iff.2 hclose] at hnot
    cases hnot

/-- A comment with an odd and an even run of dashes, and with a dash at its end. -/
theorem compile_comments_closed_dashes :
    let c : Configuration (StateM Unit) := {}
    let source := "<mjml><mj-head><!-- a---b----c - --></mj-head><mj-body></mj-body></mjml>"
    ∃ out t body h, (compile c source).run.run () = (.ok out, ()) ∧ (expanded c source).run.run () = (.ok t, ()) ∧
      headComments t = ["a---b----c -"] ∧
      ∃ before after, assembled c h body = before ++ "  <!-- a-bc - -->\n" ++ after := by
  intro c source
  obtain ⟨out, hrun, -⟩ := exists_of_map_eq (f := fun _ => ()) (v := ()) (r := (compile c source).run.run ())
    (by decide +kernel)
  obtain ⟨⟨t, body, h, ds, ht, -, -, before, after, hpage⟩, -⟩ := compile_comments_closed hrun
  have hcomments : ((expanded c source).run.run ()).1.toOption.map headComments = some ["a---b----c -"] := by
    decide +kernel
  rw [ht] at hcomments
  replace hcomments : headComments t = ["a---b----c -"] := Option.some.inj hcomments
  have htext : String.join ([("a---b----c -" : String)].map fun k => Render.line 2 (Page.commentText k)) =
      "  <!-- a-bc - -->\n" := by decide +kernel
  rw [hcomments, htext] at hpage
  exact ⟨out, t, body, h, hrun, ht, hcomments, before, _, hpage⟩

end Compiler

end EmailMarkup
