import EmailMarkup.Proofs.Template.Run
import EmailMarkup.Proofs.Template.Settled
import EmailMarkup.Proofs.Template.Verbatim
/-!
# Comments between the children of the head or of the body

A place between two children is described by what stands before and behind it: each of the two parts is a template
of its own once the other is replaced by two tags (`PartsAt`). The front is read up to the place whatever tag follows
there (`readDocument_before`), and the back is read from it whatever the open elements hold (`readDocument_behind`),
so a comment at the place is read between them (`readDocument_comment`).

A comment does not keep out the passes that protect a text before it is read. They see its ending tags, verbatim texts
and named characters: its text is the protected one, and an ending tag that does not end in it takes what follows
(`parse_comment_between`, `parse_commented_style`).
-/
namespace EmailMarkup.Template

open EmailMarkup.Text

/-! ## Documents in two parts -/

section

variable {maxDepth fuel : Nat} {tag : String} {a : Attributes} {closed : Bool} {s s' text w : List Char} {n : Node}

/-- The root begins behind what may stand before it. -/
def OpensRoot (s : List Char) (a : Attributes) (closed : Bool) (text : List Char) : Prop :=
  ∃ r, skipMisc true s = .ok r ∧ r.head? = some '<' ∧ startsWith endTagOpen r = false ∧
    readStartTag r = .ok (⟨rootTag, a, closed⟩, text)

theorem skipMisc_end_iff {node : Node} :
    (skipMisc false w >>= fun r => if r.isEmpty then pure node else throw (Stop.malformed .contentAfterRoot r)) = .ok n ↔
      node = n ∧ skipMisc false w = .ok [] := by
  constructor
  · intro h
    obtain ⟨r, hmisc, h⟩ := bind_eq_ok.1 h
    cases r with
    | nil => exact ⟨Except.ok.inj h, hmisc⟩
    | cons => cases h
  · rintro ⟨rfl, hmisc⟩
    exact bind_eq_ok.2 ⟨[], hmisc, rfl⟩

/-- A document is its root, with nothing behind it that counts. -/
theorem readDocument_eq_ok_iff : readDocument maxDepth s = .ok n ↔ ∃ a closed text w, OpensRoot s a closed text ∧
    (if closed then pure (Open.node ⟨rootTag, a, []⟩, text)
      else readContent maxDepth text.length ⟨rootTag, a, []⟩ [] text) = .ok (n, w) ∧ skipMisc false w = .ok [] := by
  constructor
  · intro h
    obtain ⟨r, hmisc, h⟩ := bind_eq_ok.1 h
    dsimp only at h
    split at h
    · cases h
    split at h
    · cases h
    rename_i hroot
    rw [Bool.or_eq_true, not_or] at hroot
    obtain ⟨⟨⟨name, a, closed⟩, text⟩, hstart, h⟩ := bind_eq_ok.1 h
    dsimp only at h
    split at h
    · cases h
    rename_i hname
    obtain rfl : name = rootTag := by simpa using hname
    have hopens : OpensRoot s a closed text := ⟨r, hmisc, by simpa using hroot.1, by simpa using hroot.2, hstart⟩
    cases closed with
    | true =>
      obtain ⟨rfl, hend⟩ := skipMisc_end_iff.1 h
      exact ⟨a, true, text, _, hopens, rfl, hend⟩
    | false =>
      obtain ⟨⟨node, w⟩, hread, h⟩ := bind_eq_ok.1 h
      obtain ⟨rfl, hend⟩ := skipMisc_end_iff.1 h
      exact ⟨a, false, text, w, hopens, hread, hend⟩
  · rintro ⟨a, closed, text, w, ⟨r, hmisc, hhead, hend, hstart⟩, hread, hafter⟩
    have hne : r.isEmpty = false := by
      cases r with
      | nil => cases hhead
      | cons => rfl
    refine bind_eq_ok.2 ⟨r, hmisc, ?_⟩
    rw [if_neg (by simp [hne]), if_neg (by simp [hhead, hend])]
    refine bind_eq_ok.2 ⟨_, hstart, ?_⟩
    dsimp only
    rw [if_neg (by simp)]
    cases closed with
    | true => exact bind_eq_ok.2 ⟨_, hread, skipMisc_end_iff.2 ⟨rfl, hafter⟩⟩
    | false => exact bind_eq_ok.2 ⟨_, hread, skipMisc_end_iff.2 ⟨rfl, hafter⟩⟩

/-- What stands before the end tags is not left over. -/
theorem skipMisc_fence_ne (ht : isName tag = true) (hf : IsFence (fence tag)) (prolog : Bool) :
    skipMisc prolog (s ++ fence tag) ≠ .ok [] := by
  intro h
  rcases skipMiscFrom_before ht hf (Nat.le_refl _) h with ⟨t, ht⟩ | ⟨s', hne, hs', -⟩
  · cases ht
  · exact hne (List.append_eq_nil_iff.1 hs'.symm).1

theorem readDocument_of_content_error {stop : Stop} (hopens : OpensRoot s a false text)
    (h : readContent maxDepth text.length ⟨rootTag, a, []⟩ [] text = .error stop) : readDocument maxDepth s = .error stop := by
  obtain ⟨r, hmisc, hhead, hend, hstart⟩ := hopens
  have hne : r.isEmpty = false := by
    cases r with
    | nil => cases hhead
    | cons => rfl
  simp [readDocument, hmisc, hne, hhead, hend, hstart, h, bind, Except.bind]

theorem opensRoot_before (ht : isName tag = true) (hf : IsFence (fence tag)) (h : OpensRoot (s ++ fence tag) a closed text) :
    ∃ s', text = s' ++ fence tag ∧ ∀ after, after.head? = some '<' → OpensRoot (s ++ after) a closed (s' ++ after) := by
  obtain ⟨r, hmisc, hhead, hend, hstart⟩ := h
  rcases skipMiscFrom_before ht hf (Nat.le_refl _) hmisc with ⟨t, rfl⟩ | ⟨r, hne, rfl, hskip⟩
  · simp [startsWith, strip?_append] at hend
  · obtain ⟨c, piece, heq, hc, hplain, hread⟩ := readStartTag_takes hstart
    obtain ⟨s', rfl, rfl⟩ : ∃ s', r = '<' :: c :: piece ++ s' ∧ text = s' ++ fence tag :=
      plain_before hf hne hplain heq
    refine ⟨s', rfl, fun after hafter => ⟨_, hskip after _ hafter (Nat.le_refl _), rfl, ?_, ?_⟩⟩
    · have hslash : '/' ≠ c := by
        rintro rfl
        exact absurd hc (by decide)
      simp [startsWith, endTagOpen, strip?, hslash]
    · rw [List.append_assoc]
      exact hread (s' ++ after)

/-- An end tag that does not end the content closes the innermost element. -/
theorem Advances.of_stop {top top' : Open} {outer outer' : List Open} (h : Advances top outer (.stop tag) top' outer') :
    top.tag = tag ∧ ∃ parent, outer = parent :: outer' ∧ top' = parent.add top.node := by
  cases h with
  | stop => exact ⟨rfl, _, rfl, rfl⟩
  | leaf h => cases h

/-- The two end tags close an element and the root. -/
theorem readContent_fence {top : Open} {outer : List Open} (ht : isName tag = true)
    (h : readContent maxDepth fuel top outer (fence tag) = .ok (n, w)) (hend : skipMisc false w = .ok []) :
    top.tag = tag ∧ ∃ root, outer = [root] ∧ n = (root.add top.node).node := by
  have hread : readToken (fence tag) = .ok (.stop tag, endText rootTag) := readToken_endText ht _
  have hroot : readToken (endText rootTag) = .ok (.stop rootTag, []) := by
    simpa using readToken_endText rootTag_isName []
  have hstays : skipMisc false (endText rootTag) = .ok (endText rootTag) := skipMiscFrom_endTag false _ _
  cases fuel with
  | zero => cases h
  | succ fuel =>
    obtain ⟨-, -, token, rest, htoken, h⟩ := readContent_cases h
    obtain ⟨rfl, rfl⟩ := Prod.mk.inj (Except.ok.inj (hread.symm.trans htoken))
    rcases h with ⟨-, -, -, rfl⟩ | ⟨top', outer', hadvances, h⟩
    · cases hstays.symm.trans hend
    · obtain ⟨htag, root, rfl, rfl⟩ := hadvances.of_stop
      refine ⟨htag, root, ?_⟩
      cases fuel with
      | zero => cases h
      | succ fuel =>
        obtain ⟨-, -, token, rest, htoken', h⟩ := readContent_cases h
        obtain ⟨rfl, rfl⟩ := Prod.mk.inj (Except.ok.inj (hroot.symm.trans htoken'))
        rcases h with ⟨-, rfl, rfl, -⟩ | ⟨top', outer', -, h⟩
        · exact ⟨rfl, rfl⟩
        · cases fuel <;> cases h

/-- A document that ends with the end tags of an element and of the root opens both before them. Up to there it is read
the same whatever tag follows. -/
theorem readDocument_before (ht : isName tag = true) (hf : IsFence (fence tag))
    (h : readDocument maxDepth (s ++ fence tag) = .ok n) : ∃ a ta before inside text,
      n = .element rootTag a (before ++ [.element tag ta inside]) ∧ ∀ after, after.head? = some '<' →
        OpensRoot (s ++ after) a false (text ++ after) ∧
        Reaches maxDepth ⟨rootTag, a, []⟩ [] (text ++ after) ⟨tag, ta, inside.reverse⟩ [⟨rootTag, a, before.reverse⟩] after := by
  obtain ⟨a, closed, text, w, hopens, hread, hend⟩ := readDocument_eq_ok_iff.1 h
  obtain ⟨text, rfl, hopens'⟩ := opensRoot_before ht hf hopens
  cases closed with
  | true =>
    obtain ⟨-, rfl⟩ := Prod.mk.inj (Except.ok.inj hread)
    exact absurd hend (skipMisc_fence_ne ht hf false)
  | false =>
    have hread : readContent maxDepth (text ++ fence tag).length ⟨rootTag, a, []⟩ [] (text ++ fence tag) = .ok (n, w) := hread
    obtain ⟨more, hwithin⟩ := readContent_within hread
    rcases readContent_before hf hread with ⟨s', rfl⟩ | ⟨top, outer, fuel, hfence, hreaches⟩
    · exact absurd hend (skipMisc_fence_ne ht hf false)
    · obtain ⟨rfl, ⟨rtag, ra, before⟩, rfl, hn⟩ := readContent_fence ht hfence hend
      obtain ⟨rfl, rfl, -⟩ : rtag = rootTag ∧ ra = a ∧ _ := Node.element.inj (hn.symm.trans hwithin)
      refine ⟨ra, top.attributes, before.reverse, top.before.reverse, text, ?_, fun after hafter => ⟨hopens' after hafter, ?_⟩⟩
      · rw [hn]
        simp [Open.node, Open.add]
      · simpa using hreaches after hafter

theorem opensRoot_empty (h : OpensRoot (startText rootTag .empty tagClose ++ s) a closed text) :
    a = .empty ∧ closed = false ∧ text = s := by
  obtain ⟨r, hmisc, -, -, hstart⟩ := h
  have hopen : opensElement (startText rootTag .empty tagClose ++ s) = true :=
    opensElement_quotedStart rootTag_isName _ .empty tagClose s
  obtain rfl := Except.ok.inj ((skipMisc_of_opensElement hopen true).symm.trans hmisc)
  have hempty : areWritableAttributes .empty = true := rfl
  have hroot : readStartTag (startText rootTag .empty tagClose ++ s) = .ok (⟨rootTag, .empty, false⟩, s) :=
    readStartTag_quotedStart rootTag_isName (attributes_iff.1 hempty).1 (spells_attributes hempty) (.inr rfl) s
  obtain ⟨htag, rfl⟩ := Prod.mk.inj (Except.ok.inj (hroot.symm.trans hstart))
  obtain ⟨-, rfl, rfl⟩ := StartTag.mk.inj htag
  exact ⟨rfl, rfl, rfl⟩

/-- A start tag is followed by the content of its element. -/
theorem Advances.of_start {top top' : Open} {outer outer' : List Open}
    (h : Advances top outer (.start ⟨tag, a, false⟩) top' outer') : top' = ⟨tag, a, []⟩ ∧ outer' = top :: outer := by
  cases h with
  | empty h => cases h
  | start => exact ⟨rfl, rfl⟩
  | leaf h => cases h

/-- Behind the start tags of the root and of an element, reading goes on in the open element. -/
theorem readContent_behind (ht : isName tag = true)
    (h : readDocument maxDepth (startText rootTag .empty tagClose ++ (startText tag .empty tagClose ++ s)) = .ok n) :
    1 ≤ maxDepth ∧ ∃ fuel r, s.length ≤ fuel ∧ skipMisc false r = .ok [] ∧
      readContent maxDepth fuel ⟨tag, .empty, []⟩ [⟨rootTag, .empty, []⟩] s = .ok (n, r) := by
  obtain ⟨a, closed, text, r, hopens, hread, hend⟩ := readDocument_eq_ok_iff.1 h
  obtain ⟨rfl, rfl, rfl⟩ := opensRoot_empty hopens
  have hstart : readToken (startText tag .empty tagClose ++ s) = .ok (.start ⟨tag, .empty, false⟩, s) :=
    readToken_startText ht rfl (.inr rfl) s
  obtain ⟨fuel, hfuel, hle⟩ : ∃ k, (startText tag .empty tagClose ++ s).length = k + 1 ∧ s.length ≤ k :=
    ⟨(tag.toList ++ (tagClose ++ s)).length, by simp [startText, Attributes.empty], by simp; omega⟩
  rw [hfuel] at hread
  obtain ⟨-, hdepth, token, rest, htoken, hread⟩ := readContent_cases hread
  obtain ⟨rfl, rfl⟩ := Prod.mk.inj (Except.ok.inj (hstart.symm.trans htoken))
  rcases hread with ⟨hstop, -⟩ | ⟨top, outer, hadvances, hread⟩
  · cases hstop
  · obtain ⟨rfl, rfl⟩ := hadvances.of_start
    exact ⟨hdepth (opensElement_quotedStart ht _ .empty _ _), fuel, r, hle, hend, hread⟩

/-- A document that begins with the start tags of the root and of an element closes both behind them. -/
theorem readDocument_behind (ht : isName tag = true)
    (h : readDocument maxDepth (startText rootTag .empty tagClose ++ (startText tag .empty tagClose ++ s)) = .ok n) :
    ∃ inside after u v u' v', n = .element rootTag .empty (.element tag .empty inside :: after) ∧
      Closes maxDepth 1 tag s inside u v ∧ Closes maxDepth 0 rootTag v after u' v' ∧ skipMisc false v' = .ok [] := by
  obtain ⟨-, fuel, r, hle, hend, hread⟩ := readContent_behind ht h
  obtain ⟨inside, u, v, hinside⟩ := readContent_closes hle hread
  have hparent : Reaches maxDepth ⟨tag, .empty, []⟩ [⟨rootTag, .empty, []⟩] s
      (Open.add ⟨rootTag, .empty, []⟩ (.element tag .empty inside)) [] v := by
    rw [← Open.node_addAll]
    exact hinside.parent rfl rfl
  obtain ⟨fuel', hle', heq⟩ := hparent _ hle
  rw [heq] at hread
  obtain ⟨after, u', v', hafter⟩ := readContent_closes hle' hread
  obtain ⟨rfl, rfl⟩ := Prod.mk.inj (Except.ok.inj ((hafter.readContent_eq rfl hle').symm.trans hread))
  exact ⟨inside, after, u, v, u', v', by simp [Open.node, Open.addAll, Open.add], hinside, hafter, hend⟩

/-- A comment between the two parts is a child of the element, between the children that the parts have. -/
theorem readDocument_comment {content : List Char} {ta : Attributes} {before inside inside' after : List Node}
    (ht : isName tag = true) (hf : IsFence (fence tag))
    (hfront : readDocument maxDepth (s ++ fence tag) = .ok (.element rootTag a (before ++ [.element tag ta inside])))
    (hback : readDocument maxDepth (startText rootTag .empty tagClose ++ (startText tag .empty tagClose ++ s')) =
      .ok (.element rootTag .empty (.element tag .empty inside' :: after)))
    (hclose : occurs commentClose content = false) :
    readDocument maxDepth (s ++ (commentOpen ++ (content ++ commentClose) ++ s')) =
      .ok (.element rootTag a (before ++ .element tag ta (inside ++ .comment (String.ofList content) :: inside') :: after)) := by
  obtain ⟨a', ta', before', inside₁, text, heq, hrun⟩ := readDocument_before ht hf hfront
  obtain ⟨-, rfl, hnodes⟩ := Node.element.inj heq
  obtain ⟨rfl, hlast⟩ := List.append_inj' hnodes rfl
  obtain ⟨-, rfl, rfl⟩ := Node.element.inj (List.cons.inj hlast).1
  obtain ⟨inside₂, after', u, v, u', v', heq, hinside, hafter, hend⟩ := readDocument_behind ht hback
  obtain ⟨hchild, rfl⟩ := List.cons.inj (Node.element.inj heq).2.2
  obtain rfl := (Node.element.inj hchild).2.2
  obtain ⟨hopens, hreaches⟩ := hrun (commentOpen ++ (content ++ commentClose) ++ s') rfl
  have hleaf : Reaches maxDepth ⟨tag, ta, inside.reverse⟩ [⟨rootTag, a, before.reverse⟩]
      (commentOpen ++ (content ++ commentClose) ++ s')
      (Open.add ⟨tag, ta, inside.reverse⟩ (.comment (String.ofList content))) [⟨rootTag, a, before.reverse⟩] s' :=
    .leaf (readToken_comment hclose s') rfl rfl (by simp [commentOpen]; omega)
  obtain ⟨fuel, hle, hcontent⟩ := ((hreaches.trans hleaf).trans (hinside.parent rfl rfl)) _ (Nat.le_refl _)
  refine readDocument_eq_ok_iff.2 ⟨a, false, _, v', hopens, ?_, hend⟩
  refine (hcontent.trans (hafter.readContent_eq rfl hle)).trans ?_
  simp [Open.node, Open.add, Open.addAll]

end

/-! ## Protecting the two parts -/

section

variable {tag : String} {s rest : List Char}

/-- A piece that both passes copy. -/
structure Stays (piece : List Char) : Prop where
  wraps : Turns wrapStep piece piece
  keeps : Turns outsideStep piece piece

theorem Stays.append {piece piece' : List Char} (h : Stays piece) (h' : Stays piece') : Stays (piece ++ piece') :=
  ⟨h.wraps.append h'.wraps, h.keeps.append h'.keeps⟩

theorem Stays.protect_append {piece : List Char} (h : Stays piece) (rest : List Char) :
    protect (piece ++ rest) = piece ++ protect rest := by
  rw [protect, wrapEnding_eq, h.wraps, replaceOutside_eq, h.keeps]
  rfl

theorem stays_endText (ht : isName tag = true) : Stays (endText tag) := ⟨wraps_endText ht, keeps_endText ht⟩

theorem stays_startText (ht : isName tag = true) (hn : isEndingTag tag = false) : Stays (startText tag .empty tagClose) :=
  ⟨wraps_startText ht rfl (.inr rfl) (endingBlock?_of_not_ending ht hn .empty (.inr rfl)), keeps_startText ht rfl (.inr rfl)⟩

theorem stays_commentOpen : Stays commentOpen :=
  ⟨.cons (fun _ => wrapStep_of_head_ne (by decide) _) (wraps_plain (by decide)),
    .cons (fun _ => outsideStep_of_tag rfl) (keeps_plain (by decide) (by decide))⟩

theorem stays_commentClose : Stays commentClose :=
  ⟨wraps_plain (by decide), keeps_plain (by decide) (by decide)⟩

/-- A settled text is protected on its own in front of a piece that stays. -/
theorem protect_append_stays {piece : List Char} (h : isSettled s = true) (hpiece : Stays piece)
    (hfenced : ∀ t, Fenced (piece ++ t)) (rest : List Char) :
    protect (s ++ (piece ++ rest)) = protect s ++ (piece ++ protect rest) := by
  rw [protect_append h (hfenced rest), hpiece.protect_append]
  rw [wrapEnding_eq, hpiece.wraps]
  exact hfenced _

theorem protect_fence (ht : isName tag = true) (h : isSettled s = true) : protect (s ++ fence tag) = protect s ++ fence tag := by
  have hstays : Stays (fence tag) := (stays_endText ht).append (stays_endText rootTag_isName)
  have happend := protect_append_stays h hstays (fun t => .inl ⟨_, rfl⟩) []
  rwa [List.append_nil, show protect [] = [] from rfl, List.append_nil] at happend

theorem protect_comment {content : List Char} (h : isSettled s = true) (hc : isSettled content = true) (rest : List Char) :
    protect (s ++ (commentOpen ++ (content ++ commentClose) ++ rest)) =
      protect s ++ (commentOpen ++ (protect content ++ commentClose) ++ protect rest) := by
  rw [List.append_assoc, List.append_assoc, protect_append_stays h stays_commentOpen (fun t => .inl ⟨_, rfl⟩),
    protect_append_stays hc stays_commentClose (fun t => .inr ⟨_, rfl⟩)]
  simp

end

/-! ## Templates -/

section

variable {maxDepth : Nat} {tag pre post comment source : String} {a ta : Attributes} {before inside inside' after : List Node}

theorem readDocument_root {s : List Char} {n : Node} (h : readDocument maxDepth s = .ok n) :
    n = .element rootTag n.attributes n.children := by
  obtain ⟨a, closed, text, w, -, hread, -⟩ := readDocument_eq_ok_iff.1 h
  cases closed with
  | true =>
    obtain ⟨rfl, -⟩ := Prod.mk.inj (Except.ok.inj hread)
    rfl
  | false =>
    obtain ⟨more, rfl⟩ := readContent_within hread
    rfl

theorem parse_eq_ok_iff {t : Template} : parse maxDepth source = .ok t ↔
    source.toList.all isBlank = false ∧ readDocument maxDepth (protect source.toList) = .ok t.root := by
  rw [parse, ofChars]
  cases hblank : source.toList.all isBlank with
  | true => simp
  | false =>
    rw [if_neg Bool.false_ne_true, ofProtected]
    cases hread : readDocument maxDepth (protect source.toList) with
    | error stop => simp
    | ok n =>
      have hroot := readDocument_root hread
      simp only [Except.ok.injEq, true_and]
      constructor
      · rintro rfl
        exact hroot
      · rintro rfl
        rfl

/-- `pre` and `post` are what stands before and behind a place between the children of an element `tag` below the root:
`inside` are the children before it and `inside'` those behind it. Each of the two parts is a template if the other is
replaced by the tags that it takes. -/
structure PartsAt (maxDepth : Nat) (tag pre post : String) (a ta : Attributes) (before inside inside' after : List Node) :
    Prop where
  whole : parse maxDepth (pre ++ post) = .ok ⟨a, before ++ .element tag ta (inside ++ inside') :: after⟩
  front : parse maxDepth (pre ++ "</" ++ tag ++ "></mjml>") = .ok ⟨a, before ++ [.element tag ta inside]⟩
  back : parse maxDepth ("<mjml><" ++ tag ++ ">" ++ post) = .ok ⟨.empty, .element tag .empty inside' :: after⟩

theorem toList_front (tag pre : String) : (pre ++ "</" ++ tag ++ "></mjml>").toList = pre.toList ++ fence tag := by
  have hend : "></mjml>".toList = tagClose ++ endText rootTag := by decide +kernel
  have hopen : "</".toList = endTagOpen := rfl
  simp only [String.toList_append, hend, hopen, fence, endText, List.append_assoc]

theorem toList_back (tag post : String) : ("<mjml><" ++ tag ++ ">" ++ post).toList =
    startText rootTag .empty tagClose ++ (startText tag .empty tagClose ++ post.toList) := by
  have hstart : "<mjml><".toList = startText rootTag .empty tagClose ++ ['<'] := by decide +kernel
  have hclose : ">".toList = tagClose := rfl
  simp [String.toList_append, hstart, hclose, startText, Attributes.empty]

/-- The head and the body are no ending tags, and no end mark stands in their end tags. -/
theorem fence_of_section (htag : tag = headTag ∨ tag = bodyTag) :
    isName tag = true ∧ isEndingTag tag = false ∧ IsFence (fence tag) := by
  rcases htag with rfl | rfl
  · exact ⟨by decide +kernel, rfl, rfl, by decide +kernel⟩
  · exact ⟨by decide +kernel, rfl, rfl, by decide +kernel⟩

/-- A comment whose ending tags and verbatim texts end in it adds itself, protected as everything else. -/
theorem parse_comment_settled (htag : tag = headTag ∨ tag = bodyTag)
    (h : PartsAt maxDepth tag pre post a ta before inside inside' after) (hpre : isSettled pre.toList = true)
    (hclose : occurs commentClose comment.toList = false) (hcomment : isSettled comment.toList = true) :
    parse maxDepth (pre ++ "<!--" ++ comment ++ "-->" ++ post) = .ok ⟨a, before ++ .element tag ta
      (inside ++ .comment (String.ofList (protect comment.toList)) :: inside') :: after⟩ := by
  obtain ⟨ht, hn, hf⟩ := fence_of_section htag
  have hsource : (pre ++ "<!--" ++ comment ++ "-->" ++ post).toList =
      pre.toList ++ (commentOpen ++ (comment.toList ++ commentClose) ++ post.toList) := by
    have hopen : "<!--".toList = commentOpen := rfl
    have hend : "-->".toList = commentClose := rfl
    simp only [String.toList_append, hopen, hend, List.append_assoc]
  have hfront := (parse_eq_ok_iff.1 h.front).2
  rw [toList_front, protect_fence ht hpre] at hfront
  have hback := (parse_eq_ok_iff.1 h.back).2
  rw [toList_back, (stays_startText rootTag_isName rfl).protect_append, (stays_startText ht hn).protect_append] at hback
  refine parse_eq_ok_iff.2 ⟨?_, ?_⟩
  · rw [hsource, List.all_eq_false]
    exact ⟨'<', by simp [commentOpen], by decide⟩
  · rw [hsource, protect_comment hpre hcomment]
    exact readDocument_comment ht hf hfront hback (occurs_commentClose_protect hclose)

/-- A comment between two children of the head or of the body adds a comment at that place, and changes nothing else, if
the ending tags and the verbatim texts that begin in it end in it. Its text is protected as if it were markup, so it is
the one written if no ending tag, no verbatim text and no named character begins in it. -/
theorem parse_comment_between (htag : tag = headTag ∨ tag = bodyTag)
    (h : PartsAt maxDepth tag pre post a ta before inside inside' after) (hpre : isSettled pre.toList = true)
    (hclose : occurs commentClose comment.toList = false) :
    (isSettled comment.toList = true → parse maxDepth (pre ++ "<!--" ++ comment ++ "-->" ++ post) =
      .ok ⟨a, before ++ .element tag ta
        (inside ++ .comment (String.ofList (protect comment.toList)) :: inside') :: after⟩) ∧
    (mentions comment.toList = false → parse maxDepth (pre ++ "<!--" ++ comment ++ "-->" ++ post) =
      .ok ⟨a, before ++ .element tag ta (inside ++ .comment comment :: inside') :: after⟩) := by
  refine ⟨parse_comment_settled htag h hpre hclose, fun hmentions => ?_⟩
  obtain ⟨hsettled, hsame⟩ := protect_of_not_mentions hmentions
  have hparse := parse_comment_settled htag h hpre hclose hsettled
  rwa [hsame, String.ofList_toList] at hparse

end

def titleFront : String := "<mjml><mj-head><mj-title>t</mj-title>"

def styleBack : String := "<mj-style>b</mj-style></mj-head><mj-body /></mjml>"

def titleAndStyle (between : List Node) : Template :=
  ⟨.empty, [.element headTag .empty ([.element "mj-title" .empty [.text "t"]] ++ (between ++
    [.element "mj-style" .empty [.cdata "b"]])), .element bodyTag .empty []]⟩

theorem partsAt_title : PartsAt defaultMaxDepth headTag titleFront styleBack .empty .empty []
    [.element "mj-title" .empty [.text "t"]] [.element "mj-style" .empty [.cdata "b"]] [.element bodyTag .empty []] := by
  have hread {source : String} (t : Template) (hsource : source = t.root.markup) (hw : isWritable t.root = true)
      (hd : levelsAll t.children ≤ defaultMaxDepth) : parse defaultMaxDepth source = .ok t := by
    rw [hsource]
    exact ofChars_markup hw hd
  exact ⟨hread (titleAndStyle []) (by decide +kernel) (by decide +kernel) (by decide +kernel),
    hread ⟨_, _⟩ (by decide +kernel) (by decide +kernel) (by decide +kernel),
    hread ⟨_, _⟩ (by decide +kernel) (by decide +kernel) (by decide +kernel)⟩

/-- Tags that are no ending tags, a reference to no named character and dashes stay as they are. An ending tag and a
named character are rewritten. -/
theorem parse_comment_between_title :
    parse defaultMaxDepth (titleFront ++ "<!--" ++ " <mj-section> & </b> &x; -- " ++ "-->" ++ styleBack) =
      .ok (titleAndStyle [.comment " <mj-section> & </b> &x; -- "]) ∧
    parse defaultMaxDepth (titleFront ++ "<!--" ++ "<mj-text>Hi</mj-text>&nbsp;" ++ "-->" ++ styleBack) =
      .ok (titleAndStyle [.comment "<mj-text><![CDATA[Hi]]></mj-text>&#160;"]) := by
  have hprotect : String.ofList (protect "<mj-text>Hi</mj-text>&nbsp;".toList) = "<mj-text><![CDATA[Hi]]></mj-text>&#160;" := by
    decide +kernel
  constructor
  · exact (parse_comment_between (.inl rfl) partsAt_title (by decide +kernel) (by decide +kernel)).2 (by decide +kernel)
  · rw [← hprotect]
    exact (parse_comment_between (.inl rfl) partsAt_title (by decide +kernel) (by decide +kernel)).1 (by decide +kernel)

/-- A style in a comment gets the marks of verbatim text. If only its start tag is there, the end tag of the style behind
the comment closes it, and the template cannot be read any more. -/
theorem parse_commented_style :
    parse defaultMaxDepth (titleFront ++ "<!--" ++ " <mj-style>a</mj-style> " ++ "-->" ++ styleBack) =
      .ok (titleAndStyle [.comment " <mj-style><![CDATA[a]]></mj-style> "]) ∧
    occurs commentClose " <mj-style>a</mj-style> ".toList = false ∧
    " <mj-style><![CDATA[a]]></mj-style> " ≠ " <mj-style>a</mj-style> " ∧
    parse defaultMaxDepth (titleFront ++ styleBack) = .ok (titleAndStyle []) ∧
    (parse defaultMaxDepth (titleFront ++ "<!--" ++ " <mj-style> " ++ "-->" ++ styleBack)).isOk = false := by
  have hprotect : String.ofList (protect " <mj-style>a</mj-style> ".toList) = " <mj-style><![CDATA[a]]></mj-style> " := by
    decide +kernel
  refine ⟨?_, by decide +kernel, by decide +kernel, partsAt_title.whole, by decide +kernel⟩
  rw [← hprotect]
  exact parse_comment_settled (.inl rfl) partsAt_title (by decide +kernel) (by decide +kernel) (by decide +kernel)

end EmailMarkup.Template
