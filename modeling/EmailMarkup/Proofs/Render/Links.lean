import EmailMarkup.Proofs.Render.Confined
import EmailMarkup.Proofs.Render.Containers
import EmailMarkup.Proofs.Text.Blank
/-!
# Links that run scripts

Browsers drop control characters in front of an address and line breaks inside it before they look at its scheme. A link
to a script leads nowhere if its scheme is there to see, in one piece behind nothing but blanks; an address that hides
its scheme in one of the two ways is written as it is (`renderNode_script_href`).
-/
namespace EmailMarkup.Render

open EmailMarkup.Text

/-! ## Addresses as browsers read them -/

/-- Characters that browsers drop in front of an address. -/
def isControl (c : Char) : Bool := c.toNat ≤ 0x20

/-- Characters that browsers drop anywhere in an address. -/
def isLineBreak (c : Char) : Bool := c == '\t' || c == '\n' || c == '\r'

def scriptSchemes : List String := ["javascript:", "vbscript:"]

/-- Whether a text begins with the scheme of a script. The case of letters does not count. -/
def beginsScript (s : List Char) : Bool :=
  scriptSchemes.any fun scheme => startsWith scheme.toList (s.map Char.toLower)

/-- Whether browsers take an address for a script. -/
def runsScript (address : String) : Bool :=
  beginsScript ((address.toList.dropWhile isControl).filter fun c => !isLineBreak c)

/-- Whether the scheme of a script is in one piece and stands behind blanks only. -/
def showsScript (address : String) : Bool :=
  (address.toList.takeWhile isControl).all isBlank && beginsScript (address.toList.dropWhile isControl)

theorem not_isLineBreak {c : Char} (h : isControl c = false) : isLineBreak c = false := by
  have hne {d : Char} (hd : isControl d = true) : (c == d) = false := by
    rw [beq_eq_false_iff_ne]
    rintro rfl
    rw [h] at hd
    cases hd
  rw [isLineBreak, hne (by decide), hne (by decide), hne (by decide)]
  rfl

theorem startsWith_trimEnd {pat : List Char} (hpat : ∀ c ∈ pat, isBlank c = false) (s : List Char) :
    startsWith pat ((trimEnd isBlank s).map Char.toLower) = startsWith pat (s.map Char.toLower) := by
  obtain ⟨post, hsplit, hpost, -⟩ := trimEnd_spec isBlank s
  cases post with
  | nil =>
    rw [List.append_nil] at hsplit
    rw [← hsplit]
  | cons c post =>
    have hc : c.toLower ∉ pat := fun hmem => by
      have hblank := hpost c List.mem_cons_self
      rw [← isBlank_toLower, hpat _ hmem] at hblank
      cases hblank
    have hrest := strip?_append_cons hc ((trimEnd isBlank s).map Char.toLower) (post.map Char.toLower)
    rw [← List.map_cons, ← List.map_append, ← hsplit] at hrest
    rw [startsWith, startsWith, hrest, Option.isSome_map]

theorem isScriptAddress_eq (address : String) : Context.isScriptAddress address =
    Context.scriptAddresses.any fun start =>
      startsWith start.toList ((address.toList.dropWhile isBlank).map Char.toLower) := by
  have hstarts : ∀ start ∈ Context.scriptAddresses, start.toList.any isBlank = false := by decide
  unfold Context.isScriptAddress
  rw [Bool.eq_iff_iff, List.any_eq_true, List.any_eq_true]
  refine exists_congr fun start => and_congr_right fun hstart => ?_
  have hblank : ∀ c ∈ start.toList, isBlank c = false := by simpa using hstarts start hstart
  rw [dropStart?, Option.isSome_map, ← startsWith, lower, trim, String.toList_ofList, String.toList_ofList, trimBoth,
    startsWith_trimEnd hblank, trimStart]

theorem head?_of_startsWith {pat s : List Char} {p : Char} (hpat : pat.head? = some p) (h : startsWith pat s = true) :
    s.head? = some p := by
  obtain ⟨r, rfl⟩ := startsWith_eq_true_iff.1 h
  rw [List.head?_append, hpat, Option.some_or]

theorem head?_of_beginsScript {s : List Char} (h : beginsScript s = true) :
    ∃ c, s.head? = some c ∧ (c.toLower = 'j' ∨ c.toLower = 'v') := by
  have hheads : ∀ scheme ∈ scriptSchemes, scheme.toList.head? = some 'j' ∨ scheme.toList.head? = some 'v' := by decide
  obtain ⟨scheme, hscheme, hstart⟩ := List.any_eq_true.1 h
  have hhead {p : Char} (hp : scheme.toList.head? = some p) : ∃ c, s.head? = some c ∧ c.toLower = p := by
    have hs := head?_of_startsWith hp hstart
    rwa [List.head?_map, Option.map_eq_some_iff] at hs
  rcases hheads scheme hscheme with hj | hv
  · obtain ⟨c, hc, hlower⟩ := hhead hj
    exact ⟨c, hc, .inl hlower⟩
  · obtain ⟨c, hc, hlower⟩ := hhead hv
    exact ⟨c, hc, .inr hlower⟩

/-- An address that begins like a script, behind blanks. -/
theorem isScriptAddress_append {lead rest : List Char} (hlead : ∀ c ∈ lead, isBlank c = true) {c : Char}
    (hrest : rest.head? = some c) (hc : c.toLower = 'j' ∨ c.toLower = 'v') :
    Context.isScriptAddress (String.ofList (lead ++ rest)) = beginsScript rest := by
  have hblank : isBlank c = false := by
    rw [← isBlank_toLower]
    rcases hc with h | h <;> rw [h] <;> decide
  have hdrop : (lead ++ rest).dropWhile isBlank = rest := by
    refine (span_append hlead fun d hd => ?_).2
    obtain rfl : c = d := Option.some.inj (hrest.symm.trans hd)
    exact hblank
  have hdata : (["data:text/html", "data:image/svg+xml"].any fun start =>
      startsWith start.toList (rest.map Char.toLower)) = false := by
    have hheads : ∀ start ∈ ["data:text/html", "data:image/svg+xml"], start.toList.head? = some 'd' := by decide
    rw [List.any_eq_false]
    intro start hstart hbegin
    have hd := head?_of_startsWith (hheads start hstart) hbegin
    rw [List.head?_map, hrest] at hd
    have hd : c.toLower = 'd' := Option.some.inj hd
    rw [hd] at hc
    exact absurd hc (by decide)
  have hall : Context.scriptAddresses = scriptSchemes ++ ["data:text/html", "data:image/svg+xml"] := rfl
  rw [isScriptAddress_eq, String.toList_ofList, hdrop, hall, List.any_append, hdata, Bool.or_false, beginsScript]

/-- An address that begins with a control character, behind blanks. -/
theorem isScriptAddress_of_control {lead rest : List Char} {c : Char} (hlead : ∀ c ∈ lead, isBlank c = true)
    (hc : isBlank c = false) (hcontrol : isControl c = true) :
    Context.isScriptAddress (String.ofList (lead ++ c :: rest)) = false := by
  have hheads : ∀ start ∈ Context.scriptAddresses, start.toList.head? = some 'j' ∨ start.toList.head? = some 'v' ∨
      start.toList.head? = some 'd' := by decide
  have hlow : c.toNat ≤ 32 := by simpa [isControl] using hcontrol
  rw [isScriptAddress_eq, String.toList_ofList, dropWhile_append_cons hlead hc, List.any_eq_false]
  intro start hstart hbegin
  have hfirst {p : Char} (hp : start.toList.head? = some p) : c = p := by
    have hmapped := head?_of_startsWith hp hbegin
    rw [List.map_cons, List.head?_cons, toLower_eq_self (by omega)] at hmapped
    exact Option.some.inj hmapped
  rcases hheads start hstart with h | h | h <;> rw [hfirst h] at hlow <;> exact absurd hlow (by decide)

/-- Of the addresses that browsers take for scripts, those are found out that show their scheme. -/
theorem isScriptAddress_of_runsScript {address : String} (h : runsScript address = true) :
    Context.isScriptAddress address = showsScript address := by
  obtain ⟨lead, rest, hsplit, hlead, hrest⟩ := exists_span isControl address.toList
  obtain ⟨htake, hdrop⟩ := span_append hlead hrest
  have haddress : address = String.ofList (lead ++ rest) := by rw [← hsplit, String.ofList_toList]
  rw [runsScript, hsplit, hdrop] at h
  rw [showsScript, hsplit, htake, hdrop, haddress]
  by_cases hall : lead.all isBlank = true
  · obtain ⟨c, hc, hletter⟩ := head?_of_beginsScript h
    cases rest with
    | nil => cases hc
    | cons d rest =>
      -- The first character is no control character, so it is not dropped.
      have hkeep : isLineBreak d = false := not_isLineBreak (hrest d rfl)
      rw [List.filter_cons_of_pos (by rw [hkeep]; rfl), List.head?_cons] at hc
      obtain rfl := Option.some.inj hc
      rw [hall, Bool.true_and, isScriptAddress_append (List.all_eq_true.1 hall) rfl hletter]
  · obtain ⟨pre, post, rfl, hpre, hpost⟩ := exists_span isBlank lead
    cases post with
    | nil => exact absurd (List.all_eq_true.2 (by simpa using hpre)) hall
    | cons c post =>
      rw [Bool.not_eq_true] at hall
      rw [hall, Bool.false_and, List.append_assoc, List.cons_append,
        isScriptAddress_of_control hpre (hpost c rfl) (hlead c (by simp))]

/-! ## Links as they are written -/

/-- The cascades differ in the address of a link at most. -/
structure Readdressed (c c' : Cascade) : Prop where
  innerMarkup : c'.node.innerMarkup = c.node.innerMarkup
  get? : ∀ {name}, name ≠ "href" → c'.get? name = c.get? name

namespace Readdressed

variable {c c' : Cascade} {name : String}

theorem getD (h : Readdressed c c') (hname : name ≠ "href") (fallback : String) :
    c'.getD name fallback = c.getD name fallback := by
  rw [Cascade.getD, h.get? hname, Cascade.getD]

theorem nonEmpty? (h : Readdressed c c') (hname : name ≠ "href") : c'.nonEmpty? name = c.nonEmpty? name := by
  rw [Cascade.nonEmpty?, h.get? hname, Cascade.nonEmpty?]

end Readdressed

/-- Nodes that differ in their own address. -/
theorem readdressed_cascade (ctx : Context) (b : Builtin) (tag : String) {a a' : Attributes} (children : List Node)
    (h : ∀ name, name ≠ "href" → a'.get? name = a.get? name) :
    Readdressed (ctx.cascade (.element tag a children) b) (ctx.cascade (.element tag a' children) b) where
  innerMarkup := rfl
  get? {name} hname := by
    have hown : (Node.element tag a' children).attribute? name = (Node.element tag a children).attribute? name := h name hname
    have hclass : (Node.element tag a' children).attribute? Head.classAttribute =
        (Node.element tag a children).attribute? Head.classAttribute := h _ (by decide)
    simp only [Context.cascade, Cascade.get?, Cascade.given?, Cascade.fromClasses?, hown, hclass]
    rfl

theorem exists_button_link (ctx : Context) (c : Cascade) (s : Surroundings) : ∃ before rest after, ∀ c', Readdressed c c' →
    (buttonOutline ctx c' s).opening =
      before ++ startTag "a" (("href", ctx.link (c'.getD "href" "#")) :: rest) ++ after := by
  have hline (above indent link label below : String) :
      above ++ (indent ++ (link ++ " " ++ label ++ " </a>") ++ "\n") ++ below =
        above ++ indent ++ link ++ (" " ++ label ++ " </a>\n" ++ below) := by
    have hend : " </a>\n" = " </a>" ++ "\n" := rfl
    simp only [hend, String.append_assoc]
  exact ⟨_, _, _, fun c' h => by
    simp (disch := decide) only [buttonOutline, labelWidth, borderValue, h.innerMarkup, h.getD, h.nonEmpty?, List.map_cons,
      List.map_nil, List.cons_append, line, hline]
    rfl⟩

theorem exists_image_link (ctx : Context) (c : Cascade) (s : Surroundings) : ∃ before rest after, ∀ c' address,
    Readdressed c c' → c'.nonEmpty? "href" = some address →
    (imageOutline ctx c' s).opening = before ++ startTag "a" (("href", ctx.link address) :: rest) ++ after := by
  have hline (above indent link middle end' below : String) : above ++ (indent ++ link ++ "\n" ++ middle ++ end') ++ below =
      above ++ indent ++ link ++ ("\n" ++ middle ++ end' ++ below) := by
    simp only [String.append_assoc]
  exact ⟨_, _, _, fun c' address h haddress => by
    simp (disch := decide) only [imageOutline, imageWidth, sidePadding, box, imageTag, haddress, h.getD, h.nonEmpty?,
      h.get?, List.cons_append, line, hline]
    rfl⟩

theorem link_of_runsScript {ctx : Context} (hs : ctx.sanitize = true) {address : String} (h : runsScript address = true) :
    ctx.link address = if showsScript address then "#" else escapeAttribute address := by
  rw [Context.link, hs, Bool.true_and, isScriptAddress_of_runsScript h, Context.escape, if_pos hs]

/-- Buttons and images write their opening. -/
theorem exists_renderNode_link {ctx : Context} {b : Builtin} (hb : b = .button ∨ b = .image) {tag : String}
    (htag : ctx.registry.lookup? tag = some (.builtin b)) (a : Attributes) (children : List Node) (s : Surroundings)
    (o : Outcome) : ∃ o', (renderNode ctx (.element tag a children) s).run o =
      .ok ((outline ctx b (.element tag a children) s).opening, o') := by
  have hkind : container? b = none := by rcases hb with rfl | rfl <;> rfl
  have hclosing : (outline ctx b (.element tag a children) s).closing = "" := by rcases hb with rfl | rfl <;> rfl
  have hrun := renderNode_childless hkind htag a children s o
  rw [hclosing, String.append_empty] at hrun
  exact ⟨_, hrun⟩

theorem nonEmpty?_of_runsScript {c : Cascade} {address : String} (h : c.get? "href" = some address)
    (hscript : runsScript address = true) : c.nonEmpty? "href" = some address := by
  have hne : address.isEmpty = false := by
    rw [Bool.eq_false_iff]
    intro hempty
    rw [String.isEmpty_iff.1 hempty] at hscript
    exact absurd hscript (by decide)
  rw [Cascade.nonEmpty?, h, Option.filter_some, hne]
  rfl

/-- With escaping on, the link of a button or an image leads nowhere if its address is a script that shows its scheme.
Other scripts are written as they are. Nothing else that is written depends on the address. -/
theorem renderNode_script_href {ctx : Context} (hs : ctx.sanitize = true) {b : Builtin} (hb : b = .button ∨ b = .image)
    {tag : String} (htag : ctx.registry.lookup? tag = some (.builtin b)) (a : Attributes) (children : List Node)
    (s : Surroundings) : ∃ before rest after, ∀ a' address, (∀ name, name ≠ "href" → a'.get? name = a.get? name) →
      (ctx.cascade (.element tag a' children) b).get? "href" = some address → runsScript address = true →
      ∀ o, ∃ o', (renderNode ctx (.element tag a' children) s).run o =
        .ok (before ++ startTag "a" (("href", if showsScript address then "#" else escapeAttribute address) :: rest) ++ after,
          o') := by
  have hrun (a' : Attributes) := exists_renderNode_link hb htag a' children s
  rcases hb with rfl | rfl
  · obtain ⟨before, rest, after, hlink⟩ := exists_button_link ctx (ctx.cascade (.element tag a children) .button) s
    refine ⟨before, rest, after, fun a' address hsame haddress hscript o => ?_⟩
    obtain ⟨o', hrun⟩ := hrun a' o
    refine ⟨o', ?_⟩
    rw [hrun, outline, hlink _ (readdressed_cascade ctx .button tag children hsame), Cascade.getD, haddress,
      Option.getD_some, link_of_runsScript hs hscript]
  · obtain ⟨before, rest, after, hlink⟩ := exists_image_link ctx (ctx.cascade (.element tag a children) .image) s
    refine ⟨before, rest, after, fun a' address hsame haddress hscript o => ?_⟩
    obtain ⟨o', hrun⟩ := hrun a' o
    refine ⟨o', ?_⟩
    rw [hrun, outline, hlink _ address (readdressed_cascade ctx .image tag children hsame)
      (nonEmpty?_of_runsScript haddress hscript), link_of_runsScript hs hscript]

theorem renderNode_script_href_capital : runsScript " JavaScript:alert(1)" = true ∧
    (contextWith .empty).registry.lookup? "mj-button" = some (.builtin .button) ∧ ∃ before rest after, ∀ o, ∃ o',
      (renderNode (contextWith .empty) (buttonTo " JavaScript:alert(1)") { width := 600 }).run o =
        .ok (before ++ startTag "a" (("href", "#") :: rest) ++ after, o') := by
  have hscript : runsScript " JavaScript:alert(1)" = true := by decide +kernel
  have hshown : showsScript " JavaScript:alert(1)" = true := by decide +kernel
  have hs : (contextWith .empty).sanitize = true := rfl
  have htag : (contextWith .empty).registry.lookup? "mj-button" = some (.builtin .button) := rfl
  obtain ⟨before, rest, after, h⟩ := renderNode_script_href hs (.inl rfl) htag
    (.ofList [("href", " JavaScript:alert(1)"), ("mj-class", "a")]) [.text "<i>Go"] { width := 600 }
  have h := h _ " JavaScript:alert(1)" (fun _ _ => rfl) (by decide +kernel) hscript
  rw [hshown] at h
  exact ⟨hscript, htag, before, rest, after, h⟩

/-- A script behind a control character is written as it is. -/
theorem renderNode_script_control : runsScript "\x01javascript:alert(1)" = true ∧ ∃ before rest after o',
    (renderNode (contextWith .empty) (buttonTo "\x01javascript:alert(1)") { width := 600 }).run {} =
      .ok (before ++ startTag "a" (("href", "\x01javascript:alert(1)") :: rest) ++ after, o') := by
  have htag : (contextWith .empty).registry.lookup? "mj-button" = some (.builtin .button) := rfl
  have hlink : (contextWith .empty).link (((contextWith .empty).cascade (buttonTo "\x01javascript:alert(1)") .button).getD
      "href" "#") = "\x01javascript:alert(1)" := by decide +kernel
  obtain ⟨before, rest, after, hopening⟩ := exists_button_link (contextWith .empty)
    ((contextWith .empty).cascade (buttonTo "\x01javascript:alert(1)") .button) { width := 600 }
  have hopening := hopening _ ⟨rfl, fun _ => rfl⟩
  rw [hlink] at hopening
  obtain ⟨o', hrun⟩ := exists_renderNode_link (.inl rfl) htag
    (.ofList [("href", "\x01javascript:alert(1)"), ("mj-class", "a")]) [.text "<i>Go"] { width := 600 } {}
  exact ⟨by decide +kernel, before, rest, after, o', hrun.trans (congrArg (fun html => Except.ok (html, o')) hopening)⟩

end EmailMarkup.Render
