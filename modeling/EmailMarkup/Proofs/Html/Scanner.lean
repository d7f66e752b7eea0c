import EmailMarkup.Proofs.Html.ScanAttributes
import EmailMarkup.Proofs.Html.Elements
/-!
# Scanning by byte offsets

The scanner that goes over the bytes of HTML reads the same as `Document.parse`, for every text (`scan?_eq_takeAll`).
In particular it has a result: no offset is ever past the end or inside a character where something is cut out, and no
loop goes on without end.

Each part of it is compared with its counterpart on characters. The offset it starts from stands between two
characters, and so does the one it ends at (`At`).
-/
namespace EmailMarkup.Html

open EmailMarkup.Text
open Document (byteLength)

/-- The place of a start tag, without that for attributes. -/
def Document.Span.tag (s : Document.Span) : Scanner.TagSpan := ⟨s.start, s.stop, s.style⟩

namespace Scanner

variable {html : String}

/-! ## What is passed over -/

/-- The end of what is passed over is looked for behind the characters that it begins with. -/
theorem find?_through (n : Nat) {skip : Nat} (close : List Char) {front s : List Char} (hs : front <+: s)
    (hfront : ∀ c ∈ front, c.toNat < 128) (hskip : front.length = skip) :
    (do
      let inner ← sliceFrom? (String.ofList s) skip
      return (find? close inner).map fun i => n + skip + i + byteLength close) =
      some ((through? skip close s).map fun (text, _) => n + byteLength text) := by
  obtain ⟨rest, rfl⟩ := hs
  have hlength : byteLength front = skip := (byteLength_ascii hfront).trans hskip
  have hat : At (String.ofList (front ++ rest)) skip rest := by
    have hzero := At.zero (String.ofList (front ++ rest))
    rw [String.toList_ofList] at hzero
    have hnext := hzero.append
    rwa [Nat.zero_add, hlength] at hnext
  rw [hat.sliceFrom?_eq, through?, ← hskip, List.drop_left, List.take_left, Option.bind_eq_bind, Option.bind_some,
    find?_ofList]
  cases cut close rest with
  | none => rfl
  | some r => simp [byteLength_append, hlength, hskip, Nat.add_assoc]

theorem skipSpecial?_eq {n : Nat} {s : List Char} (h : At html n s) :
    skipSpecial? html n = some ((special? s).elim (some n) fun found => found.map fun (text, _) => n + byteLength text) := by
  have hfold : (stripFold? ['<', '!', 'd', 'o', 'c', 't', 'y', 'p', 'e'] (octets s)).isSome =
      (stripFold? ['<', '!', 'd', 'o', 'c', 't', 'y', 'p', 'e'] s).isSome := by
    rw [stripFold?_octets (by simp), Option.isSome_map]
  rw [skipSpecial?, special?, h.sliceFrom?_eq, Option.bind_eq_bind, Option.bind_some]
  dsimp only
  rw [String.toList_ofList, hfold]
  split
  · rename_i hcomment
    exact find?_through n _ (startsWith_eq_true_iff.1 hcomment) (by simp) rfl
  · split
    · exact find?_through n _ List.nil_prefix (by simp) rfl
    · split
      · rename_i hdata
        exact find?_through n _ (startsWith_eq_true_iff.1 hdata) (by simp) rfl
      · split
        · exact find?_through n _ List.nil_prefix (by simp) rfl
        · rfl

/-! ## Tags -/

def tagSpan (n : Nat) (tag : StartTag) : TagSpan := ⟨n, n + byteLength tag.text, tag.style.map (placeIn n tag.text)⟩

namespace Progress

/-- What is known behind a piece that begins at an offset. -/
def take (p : Progress) (n : Nat) : Piece → Progress
  | .start tag => p.add tag.name tag.attributes tag.isOpen (tagSpan n tag)
  | .stop name _ => p.stop name
  | .other _ => p

def takeAll : Progress → Nat → List Piece → Progress
  | p, _, [] => p
  | p, n, piece :: ps => (p.take n piece).takeAll (n + byteLength piece.text) ps

end Progress

/-- The offset behind pieces that begin at `n`, and what is known there. -/
def outcome (p : Progress) (n : Nat) (ps : List Piece) : Nat × Progress := (n + byteLength (textOf ps), p.takeAll n ps)

theorem outcome_other (p : Progress) (n : Nat) (text : List Char) :
    outcome p n [.other text] = (n + byteLength text, p) := by
  simp [outcome, textOf, Piece.text, Progress.takeAll, Progress.take]

theorem outcome_stop (p : Progress) (n : Nat) (name : String) (text : List Char) :
    outcome p n [.stop name text] = (n + byteLength text, p.stop name) := by
  simp [outcome, textOf, Piece.text, Progress.takeAll, Progress.take]

theorem byteLength_two : byteLength ['<', '/'] = 2 := by decide

/-- An end tag. -/
theorem stopTag?_eq {n : Nat} {s t : List Char} (h : At html n s) (hs : s = '<' :: '/' :: t) (p : Progress) :
    stopTag? html p n = some (outcome p n (readStop s).1) := by
  rw [stopTag?, h.sliceFrom?_eq, Option.bind_eq_bind, Option.bind_some, find?_ofList, readStop, through?, List.drop_zero]
  cases hcut : cut ['>'] s with
  | none =>
    rw [Option.map_none, Option.map_none, outcome_other, h.size_eq]
    rfl
  | some r =>
    obtain ⟨before, after⟩ := r
    have hsplit := (not_mem_of_cut hcut).1
    obtain ⟨b, rfl⟩ : ∃ b, before = ['<', '/'] ++ b := by
      rcases before with _ | ⟨c, _ | ⟨d, b⟩⟩
      · simp [hs] at hsplit
      · simp [hs] at hsplit
      · obtain ⟨rfl, rfl, -⟩ : '<' = c ∧ '/' = d ∧ _ := by simpa [hs] using hsplit
        exact ⟨b, rfl⟩
    have hname : At html (n + 2) (b ++ '>' :: after) := by
      rw [hsplit, List.append_assoc] at h
      exact byteLength_two ▸ h.append
    have hstop : n + byteLength (['<', '/'] ++ b) = n + 2 + byteLength b := by
      rw [byteLength_append, byteLength_two, Nat.add_assoc]
    have htext : ((([] ++ (['<', '/'] ++ b)) ++ ['>']).drop 2).dropLast = b := by simp
    dsimp only [Option.map_some, List.take_zero]
    rw [outcome_stop, htext, hstop, hname.slice?_eq, List.nil_append, byteLength_append, ← Nat.add_assoc n, hstop]
    simp only [lower, trim, String.toList_ofList, Option.pure_def, Option.bind_some]
    rfl

theorem tagEnd?_eq {n : Nat} {s : List Char} (h : At html n ('<' :: s)) :
    tagEnd? html n = (cutOutside ⟨[], []⟩ '>' {} s).map fun (inner, _) => n + 1 + byteLength inner := by
  have hat : At html (n + 1) s := At.append (s := ['<']) h
  rw [tagEnd?, hat.drop_octets, cutOutside_octets (by simp)]
  cases cutOutside ⟨[], []⟩ '>' {} s with
  | none => rfl
  | some r => simp [length_octets]

theorem closed?_eq {n : Nat} {inner t : List Char} (h : At html n (inner ++ t)) :
    closed? html n (n + byteLength inner) = some (endsWith ['/'] inner) := by
  rw [closed?]
  rcases List.eq_nil_or_concat inner with rfl | ⟨init, c, rfl⟩
  · exact if_neg (Nat.lt_irrefl n)
  · rw [List.concat_eq_append] at h ⊢
    obtain ⟨o, hlast, ho⟩ := h.last_octet
    have hpos : 0 < byteLength (init ++ [c]) := byteLength_pos (by simp)
    have hslash : (o == '/') = ('/' == c) := by
      rw [Bool.eq_iff_iff, beq_iff_eq, beq_iff_eq, ho '/' (by decide), eq_comm]
    rw [if_pos (by omega), hlast, Option.map_some, hslash, endsWith_concat]

theorem ascii_of_mem_rawElements {name : String} (h : name ∈ rawElements) : ∀ c ∈ '<' :: '/' :: name.toList, c.toNat < 128 := by
  rw [rawElements, List.mem_cons, List.mem_singleton] at h
  rcases h with rfl | rfl <;> simp

/-- The end of a raw element. -/
theorem rawEnd?_eq {n : Nat} {s : List Char} (h : At html n s) {name : String} (hname : name ∈ rawElements) :
    ∃ stop, rawEnd? html name n = some stop ∧
      stop.map (· + 1) = (rawContent? name s).map fun (content, _) => n + byteLength content := by
  have hascii := ascii_of_mem_rawElements hname
  rw [rawEnd?, h.drop_octets, octets_ascii hascii, cutFold_octets (by simp) hascii, rawContent?]
  cases hcut : cutFold ('<' :: '/' :: name.toList) s with
  | none => exact ⟨none, rfl, rfl⟩
  | some r =>
    obtain ⟨before, after⟩ := r
    obtain ⟨tail, rfl, -, -⟩ := cutBy_eq_some_iff.1 hcut
    refine ⟨(find? ['>'] (String.ofList tail)).map (n + byteLength before + ·), ?_, ?_⟩
    · dsimp only [Option.map_some]
      rw [length_octets, h.append.sliceFrom?_eq]
      rfl
    · have hone : byteLength ['>'] = 1 := by decide
      rw [find?_ofList, Option.bind_eq_bind, Option.bind_some]
      dsimp only
      rw [through?, List.drop_left, List.take_left]
      cases cut ['>'] tail with
      | none => rfl
      | some r => simp [byteLength_append, hone, Nat.add_assoc]

/-- A start tag with its content, if it is raw. -/
theorem element?_eq {n : Nat} {tag : StartTag} {rest : List Char} (h : At html n (tag.text ++ rest)) (p : Progress) :
    element? html p tag.name tag.attributes tag.closed (tagSpan n tag) = some (outcome p n (startPieces tag rest).1) := by
  have hopens : (!tag.closed && !voidElements.contains tag.name) = tag.isOpen := rfl
  rw [element?, startPieces, hopens]
  split
  · rename_i hraw
    have hname : tag.name ∈ rawElements := List.contains_iff_mem.1 (Bool.and_eq_true_iff.1 hraw).2
    obtain ⟨stop, hstop, hend⟩ := rawEnd?_eq h.append hname
    rw [tagSpan, hstop, ← tagSpan]
    cases hcontent : rawContent? tag.name rest with
    | none =>
      rw [hcontent, Option.map_none, Option.map_eq_none_iff] at hend
      subst hend
      simp [outcome, textOf, Piece.text, Progress.takeAll, Progress.take, tagSpan]
    | some r =>
      rw [hcontent, Option.map_some, Option.map_eq_some_iff] at hend
      obtain ⟨stop, rfl, hend⟩ := hend
      simp [outcome, textOf, Piece.text, Progress.takeAll, Progress.take, byteLength_append, hend, Nat.add_assoc]
  · simp [outcome, textOf, Piece.text, Progress.takeAll, Progress.take, tagSpan]

/-- What stands between `<` and `>`, whether it makes a tag or not: a name, attributes, and a slash if it ends with one. -/
theorem exists_parts (inner : List Char) : ∃ name attributes,
    inner = name ++ attributes ++ slash (endsWith ['/'] inner) ∧
      (if endsWith ['/'] inner then inner.dropLast else inner) = name ++ attributes ∧
      (name ++ attributes).takeWhile (fun c => !isAsciiBlank c) = name := by
  obtain ⟨name, attributes, hcontent, hname, hattributes⟩ :=
    exists_span (fun c => !isAsciiBlank c) (if endsWith ['/'] inner then inner.dropLast else inner)
  refine ⟨name, attributes, ?_, hcontent, (span_append hname hattributes).1⟩
  rw [← hcontent]
  cases hclosed : endsWith ['/'] inner with
  | true => exact eq_append_slash hclosed
  | false => simp [slash]

/-- A text between `<` and `>` makes no tag if it has no name, or begins with an exclamation mark. -/
theorem noName_iff (name : List Char) :
    ((attributeKey name).isEmpty || startsWith ['!'] (attributeKey name).toList) = true ↔ name = [] ∨ name.head? = some '!' := by
  cases name with
  | nil => simp [attributeKey]
  | cons c name =>
    have hbang : c.toLower = '!' ↔ c = '!' := toLower_eq_iff (by decide) (by decide)
    have hne : (attributeKey (c :: name)).isEmpty = false := by simp [attributeKey, ← Bool.not_eq_true, String.isEmpty_iff]
    rw [hne, Bool.false_or, startsWith_eq_true_iff, attributeKey, String.toList_ofList, List.map_cons, List.cons_prefix_cons]
    simp [eq_comm (a := '!'), hbang]

/-- The tag that is read off these parts. -/
theorem startTag?_of_parts {inner name attributes : List Char}
    (hcontent : (if endsWith ['/'] inner then inner.dropLast else inner) = name ++ attributes)
    (hspan : (name ++ attributes).takeWhile (fun c => !isAsciiBlank c) = name) :
    Html.startTag? inner = if name = [] ∨ name.head? = some '!' then none else
      let found := readAttributes ('<' :: (name ++ attributes)).length (name ++ attributes).length {} attributes
      some ⟨attributeKey name, found.attributes, '<' :: inner ++ ['>'], found.style, endsWith ['/'] inner⟩ := by
  have hlength : 1 + (name ++ attributes).length = ('<' :: (name ++ attributes)).length := Nat.add_comm 1 _
  have hdrop : (name ++ attributes).drop name.length = attributes := List.drop_left
  rw [Html.startTag?]
  simp only [hcontent, hspan, hdrop, hlength]
  cases name with
  | nil => rfl
  | cons c name =>
    by_cases hbang : c = '!'
    · simp [hbang]
    · simp [hbang, attributeKey]

/-- The slash is left out where the attributes end. -/
theorem limit_eq {n : Nat} {inner content : List Char} {closed : Bool} (h : inner = content ++ slash closed) :
    (if closed then n + byteLength inner - 1 else n + byteLength inner) = n + byteLength content := by
  cases closed with
  | true =>
    have hone : byteLength ['/'] = 1 := by decide
    rw [if_pos rfl, h, slash, if_pos rfl, byteLength_append, hone]
    rfl
  | false => simp [h, slash]

/-- The attributes of a start tag, up to the slash if it has one. -/
theorem attributes?_of_parts {n : Nat} {name attributes inner rest : List Char} {closed : Bool}
    (hinner : inner = name ++ attributes ++ slash closed) (h : At html n ('<' :: (inner ++ '>' :: rest))) :
    let limit := n + byteLength ('<' :: (name ++ attributes))
    let found := readAttributes ('<' :: (name ++ attributes)).length (name ++ attributes).length {} attributes
    attributes? html limit (limit + 1) .empty none (n + byteLength ('<' :: name)) =
      some (found.attributes, found.style.map (placeIn n ('<' :: inner ++ ['>']))) := by
  intro limit found
  have hfront : At html n ('<' :: (name ++ attributes) ++ (slash closed ++ '>' :: rest)) := by
    rw [hinner] at h
    simpa using h
  have htext : '<' :: (name ++ attributes) <+: '<' :: inner ++ ['>'] := ⟨slash closed ++ ['>'], by rw [hinner]; simp⟩
  have hlength : attributes.length ≤ (name ++ attributes).length := by
    rw [List.length_append]
    exact Nat.le_add_left _ _
  have hfuel : attributes.length < limit + 1 := by
    have hbytes := length_le_byteLength attributes
    simp only [limit]
    rw [byteLength_cons, byteLength_append]
    omega
  have hwhole : '<' :: (name ++ attributes) = ('<' :: name) ++ attributes := rfl
  exact attributes?_eq hfront hwhole htext {} hlength hfuel

/-- A start tag, with the content of a raw element. -/
theorem startTag?_eq {n : Nat} {s : List Char} (h : At html n ('<' :: s)) (p : Progress) :
    startTag? html p n = some (outcome p n (readStart ('<' :: s)).1) := by
  rw [startTag?, tagEnd?_eq h, readStart, List.drop_one, List.tail_cons]
  cases hcut : cutOutside ⟨[], []⟩ '>' {} s with
  | none =>
    dsimp only [Option.map_none]
    rw [outcome_other, h.size_eq]
  | some r =>
    obtain ⟨inner, rest⟩ := r
    obtain ⟨rfl, -⟩ := cutOutside_eq_some_iff.1 hcut
    have hat : At html (n + 1) (inner ++ '>' :: rest) := At.append (s := ['<']) h
    obtain ⟨name, attributes, hinner, hcontent, hspan⟩ := exists_parts inner
    have hslice : slice? html (n + 1) (n + 1 + byteLength (name ++ attributes)) = some (String.ofList (name ++ attributes)) := by
      refine At.slice?_eq (t := slash (endsWith ['/'] inner) ++ '>' :: rest) ?_
      rwa [← List.append_assoc, ← hinner]
    have hname : slice? (String.ofList (name ++ attributes)) 0 (byteLength name) = some (String.ofList name) := by
      have hzero := At.zero (String.ofList (name ++ attributes))
      rw [String.toList_ofList] at hzero
      simpa using hzero.slice?_eq
    have hopen (t : List Char) : n + 1 + byteLength t = n + byteLength ('<' :: t) := by
      rw [byteLength_cons, Nat.add_assoc]
      rfl
    have htext : n + 1 + byteLength inner + 1 = n + byteLength ('<' :: inner ++ ['>']) := by
      rw [hopen, byteLength_append, ← Nat.add_assoc]
      rfl
    dsimp only [Option.map_some]
    rw [closed?_eq hat, startTag?_of_parts hcontent hspan, htext]
    simp only [Option.bind_eq_bind, Option.bind_some, limit_eq hinner, hslice, String.toList_ofList, hspan, hname,
      lower_ofList, noName_iff]
    split
    · exact congrArg some (outcome_other p n _).symm
    · dsimp only [Option.map_none]
      rw [hopen, hopen, attributes?_of_parts hinner h, Option.bind_some]
      generalize readAttributes ('<' :: (name ++ attributes)).length (name ++ attributes).length {} attributes = found
      let tag : StartTag := ⟨attributeKey name, found.attributes, '<' :: inner ++ ['>'], found.style, endsWith ['/'] inner⟩
      have htag : At html n (tag.text ++ rest) := by simpa [tag] using h
      exact element?_eq htag p

/-! ## The whole text -/

theorem textOf_readAngle (s : List Char) : textOf (readAngle ('<' :: s)).1 ++ (readAngle ('<' :: s)).2 = '<' :: s := by
  have hscans := scans_piecesFrom (Nat.le_refl (readAngle ('<' :: s)).2.length)
  have hwhole := ((continues_readAngle s).2 _ hscans).textOf_eq
  rwa [textOf, List.flatMap_append, ← textOf, ← textOf, hscans.textOf_eq] at hwhole

/-- The offset behind what begins with `<` is the end exactly if nothing is left to read. -/
theorem outcome_lt_size_iff {n : Nat} {s : List Char} (h : At html n ('<' :: s)) (p : Progress) :
    (outcome p n (readAngle ('<' :: s)).1).1 < html.utf8ByteSize ↔ (readAngle ('<' :: s)).2 ≠ [] := by
  have hsize : html.utf8ByteSize = n + byteLength (textOf (readAngle ('<' :: s)).1) + byteLength (readAngle ('<' :: s)).2 := by
    rw [h.size_eq, Nat.add_assoc, ← byteLength_append, textOf_readAngle]
  rw [hsize, outcome]
  constructor
  · intro hlt hnil
    rw [hnil] at hlt
    exact Nat.lt_irrefl _ hlt
  · exact fun hne => Nat.lt_add_of_pos_right (byteLength_pos hne)

theorem slash_eq_startsWith {n : Nat} {s : List Char} (h : At html n ('<' :: s)) :
    (octet? html (n + 1) == some '/') = startsWith ['<', '/'] ('<' :: s) := by
  have hsecond : At html (n + 1) s := At.append (s := ['<']) h
  rw [Bool.eq_iff_iff, beq_iff_eq, hsecond.octet?_iff (by decide), startsWith_eq_true_iff, List.cons_prefix_cons,
    List.singleton_prefix_iff_head?_eq_some]
  simp

/-- What begins with `<`. There is no more to read if nothing is left. -/
theorem angle?_eq {n : Nat} {s : List Char} (h : At html n ('<' :: s)) (p : Progress) :
    angle? html p n = some (if (readAngle ('<' :: s)).2 = [] then none else some (outcome p n (readAngle ('<' :: s)).1).1,
      (outcome p n (readAngle ('<' :: s)).1).2) := by
  have hmore (r : Nat × Progress) (hr : r = outcome p n (readAngle ('<' :: s)).1) :
      (if r.1 < html.utf8ByteSize then some r.1 else none, r.2) =
        (if (readAngle ('<' :: s)).2 = [] then none else some (outcome p n (readAngle ('<' :: s)).1).1,
          (outcome p n (readAngle ('<' :: s)).1).2) := by
    rw [hr]
    simp only [outcome_lt_size_iff h p, ite_not]
  rw [angle?, skipSpecial?_eq h, Option.bind_eq_bind, Option.bind_some]
  cases hspecial : special? ('<' :: s) with
  | none =>
    dsimp only [Option.elim_none]
    rw [if_neg (Nat.lt_irrefl n)]
    rw [slash_eq_startsWith h]
    split
    · rename_i hstop
      obtain ⟨t, ht⟩ := startsWith_eq_true_iff.1 hstop
      have hread : readAngle ('<' :: s) = readStop ('<' :: s) := by rw [readAngle, hspecial, hstop]; rfl
      rw [stopTag?_eq h ht.symm, ← hread]
      exact congrArg some (hmore _ rfl)
    · rename_i hstop
      have hread : readAngle ('<' :: s) = readStart ('<' :: s) := by rw [readAngle, hspecial]; exact if_neg hstop
      rw [startTag?_eq h, ← hread]
      exact congrArg some (hmore _ rfl)
  | some found =>
    cases found with
    | none =>
      have hread : readAngle ('<' :: s) = ([.other ('<' :: s)], []) := by rw [readAngle, hspecial]
      rw [hread, outcome_other]
      rfl
    | some r =>
      obtain ⟨text, rest⟩ := r
      have hread : readAngle ('<' :: s) = ([.other text], rest) := by rw [readAngle, hspecial]
      have hne : text ≠ [] := List.ne_nil_of_mem (special?_eq_some hspecial).2.1
      have hpos := byteLength_pos hne
      dsimp only [Option.elim_some, Option.map_some]
      rw [if_pos (by omega)]
      refine congrArg some (hmore (n + byteLength text, p) ?_)
      rw [hread, outcome_other]

theorem Progress.takeAll_append (p : Progress) (n : Nat) (ps qs : List Piece) :
    p.takeAll n (ps ++ qs) = (p.takeAll n ps).takeAll (n + byteLength (textOf ps)) qs := by
  induction ps generalizing p n with
  | nil => rfl
  | cons piece ps ih =>
    rw [List.cons_append, takeAll, ih, takeAll, textOf_cons, byteLength_append, Nat.add_assoc]

/-- There is nothing to know about text with no `<`. -/
theorem exists_scans_text {before rest : List Char} {ps : List Piece} (hbefore : '<' ∉ before)
    (hrest : ∀ d ∈ rest.head?, d = '<') (h : Scans rest ps) :
    ∃ qs, Scans (before ++ rest) qs ∧ ∀ p n, Progress.takeAll p n qs = p.takeAll (n + byteLength before) ps := by
  cases before with
  | nil => exact ⟨ps, h, fun p n => rfl⟩
  | cons c before =>
    rw [List.mem_cons, not_or] at hbefore
    exact ⟨.other (c :: before) :: ps, .text (Ne.symm hbefore.1) hbefore.2 hrest h, fun p n => rfl⟩

/-- The scanner takes one piece after the other. -/
theorem run?_eq {n fuel : Nat} {s : List Char} {ps : List Piece} (h : At html n s) (hs : Scans s ps) (hfuel : s.length < fuel)
    (p : Progress) : run? html fuel p n = some (p.takeAll n ps) := by
  induction fuel generalizing n s ps p with
  | zero => omega
  | succ fuel ih =>
    rw [run?, h.sliceFrom?_eq, Option.bind_eq_bind, Option.bind_some, find?_ofList]
    by_cases hmem : '<' ∈ s
    · obtain ⟨before, after, rfl, hbefore⟩ := List.eq_append_cons_of_mem hmem
      obtain ⟨hlength, hcontinues⟩ := continues_readAngle after
      have hrest := scans_piecesFrom (Nat.le_refl (readAngle ('<' :: after)).2.length)
      obtain ⟨qs, hqs, htake⟩ := exists_scans_text hbefore (by simp) (hcontinues _ hrest)
      rw [cut_char hbefore, hs.unique hqs, htake, Progress.takeAll_append]
      dsimp only [Option.map_some]
      rw [angle?_eq h.append]
      have hnext : At html (n + byteLength before + byteLength (textOf (readAngle ('<' :: after)).1))
          (readAngle ('<' :: after)).2 := by
        refine At.append ?_
        rw [textOf_readAngle]
        exact h.append
      by_cases hnil : (readAngle ('<' :: after)).2 = []
      · rw [if_pos hnil, hnil]
        rfl
      · rw [if_neg hnil]
        rw [List.length_append] at hfuel
        exact ih hnext hrest (by omega) _
    · obtain ⟨qs, hqs, htake⟩ := exists_scans_text hmem (by simp) Scans.nil
      rw [List.append_nil] at hqs
      rw [cut_char_eq_none hmem, hs.unique hqs, htake]
      rfl

theorem scan?_eq_takeAll (html : String) : scan? html = some (Progress.takeAll {} 0 (Document.parse html).pieces) := by
  have hfuel : html.toList.length < html.utf8ByteSize + 1 := by
    rw [utf8ByteSize_eq]
    exact Nat.lt_succ_of_le (length_le_byteLength _)
  exact run?_eq (At.zero html) (scans_piecesFrom (Nat.le_refl _)) hfuel {}

/-! ## Elements and their places -/

namespace Progress

theorem building_takeAll (p : Progress) (n : Nat) (ps : List Piece) :
    (p.takeAll n ps).building = ps.foldl Building.step p.building := by
  induction ps generalizing p n with
  | nil => rfl
  | cons piece ps ih =>
    rw [takeAll, ih]
    cases piece <;> rfl

/-- There are no places for elements that are not there yet. -/
def Fits (p : Progress) : Prop := p.spans.length ≤ p.building.forest.size

theorem Fits.add {p : Progress} (h : p.Fits) (name : String) (attributes : Attributes) (opens : Bool) (span : TagSpan) :
    (p.add name attributes opens span).Fits := by
  have hsize : (p.building.add name attributes opens).forest.size = p.building.forest.size + 1 := Forest.size_addLeaf _ _ _
  rw [Fits] at h
  rw [Fits, Progress.add, hsize, List.length_set, List.length_rightpad]
  omega

theorem span?_add {p : Progress} (h : p.Fits) (name : String) (attributes : Attributes) (opens : Bool) (span : TagSpan)
    (id : Nat) : (p.add name attributes opens span).span? id =
      if id = p.building.forest.size then some span else p.span? id := by
  rw [Fits] at h
  rw [span?, Progress.add, List.getElem?_set]
  split
  · rename_i heq
    rw [if_pos heq.symm, if_pos (by rw [List.length_rightpad]; omega)]
    rfl
  · rename_i hne
    rw [if_neg (Ne.symm hne), List.rightpad]
    by_cases hid : id < p.spans.length
    · rw [List.getElem?_append_left hid, span?]
    · rw [List.getElem?_append_right (by omega), List.getElem?_replicate, span?, List.getElem?_eq_none (by omega)]
      split <;> rfl

/-- The places behind pieces are those that were there, and those of the start tags. -/
theorem span?_takeAll {p : Progress} (h : p.Fits) (n : Nat) (ps : List Piece) (id : Nat) :
    (p.takeAll n ps).span? id = if id < p.building.forest.size then p.span? id
      else ((Document.spansFrom n ps)[id - p.building.forest.size]?).map Document.Span.tag := by
  induction ps generalizing p n with
  | nil =>
    rw [Fits] at h
    rw [takeAll]
    split
    · rfl
    · rw [span?, List.getElem?_eq_none (by omega)]
      rfl
  | cons piece ps ih =>
    rw [takeAll]
    cases piece with
    | start tag =>
      have hsize : (p.take n (.start tag)).building.forest.size = p.building.forest.size + 1 := Forest.size_addLeaf _ _ _
      have hfits : (p.take n (.start tag)).Fits := h.add _ _ _ _
      rw [ih hfits, hsize, take, span?_add h, Document.spansFrom]
      rcases Nat.lt_trichotomy id p.building.forest.size with hid | rfl | hid
      · rw [if_pos (by omega), if_neg (by omega), if_pos hid]
      · rw [if_pos (by omega), if_pos rfl, if_neg (by omega), Nat.sub_self]
        rfl
      · obtain ⟨k, hk⟩ : ∃ k, id - p.building.forest.size = k + 1 := ⟨id - p.building.forest.size - 1, by omega⟩
        have hk' : id - (p.building.forest.size + 1) = k := by omega
        rw [if_neg (by omega), if_neg (by omega), hk, hk']
        rfl
    | stop name text =>
      have hsize : (p.take n (.stop name text)).building.forest.size = p.building.forest.size := by
        rw [take, Progress.stop, Building.forest_stop]
      have hfits : (p.take n (.stop name text)).Fits := by
        rw [Fits, hsize]
        exact h
      rw [ih hfits, hsize]
      rfl
    | other text => exact ih h _

end Progress

/-! ## Places for attributes -/

/-- Going back over spaces ends where they begin. -/
theorem retreat?_eq {n : Nat} {s t : List Char} (h : At html n (s ++ t)) :
    retreat? html n (n + byteLength s) = some (n + byteLength (trimEnd (· == ' ') s)) := by
  generalize hlength : s.length = k
  induction k generalizing s t with
  | zero =>
    obtain rfl := List.eq_nil_of_length_eq_zero hlength
    have hstay : retreat? html n n = some n := by
      cases n with
      | zero => rfl
      | succ n => rw [retreat?, if_neg (Nat.lt_irrefl _)]
    exact hstay
  | succ k ih =>
    rcases List.eq_nil_or_concat s with rfl | ⟨init, c, rfl⟩
    · cases hlength
    · rw [List.concat_eq_append] at h hlength ⊢
      obtain ⟨o, hlast, ho⟩ := h.last_octet
      have hpos : 0 < byteLength (init ++ [c]) := byteLength_pos (by simp)
      obtain ⟨m, hm⟩ : ∃ m, n + byteLength (init ++ [c]) = m + 1 := ⟨n + byteLength (init ++ [c]) - 1, by omega⟩
      have hspace : (o == ' ') = (c == ' ') := by rw [Bool.eq_iff_iff, beq_iff_eq, beq_iff_eq, ho ' ' (by decide)]
      rw [hm, Nat.add_sub_cancel] at hlast
      rw [hm, retreat?, if_pos (by omega), hlast, trimEnd_concat]
      dsimp only
      rw [hspace]
      split
      · rename_i hc
        obtain rfl := beq_iff_eq.1 hc
        have hone : byteLength [' '] = 1 := by decide
        have hm' : m = n + byteLength init := by
          rw [byteLength_append, hone] at hm
          omega
        rw [hm']
        exact ih (t := [' '] ++ t) (by rwa [← List.append_assoc]) (by simpa using hlength)
      · rw [hm]

/-- New attributes go to the same place. -/
theorem insertionPoint?_eq {n : Nat} {tag : StartTag} {name attributes rest : List Char} (htag : tag.IsRead name attributes)
    (h : At html n (tag.text ++ rest)) :
    insertionPoint? html (tagSpan n tag) = some (Document.spanAt n tag).insert := by
  obtain ⟨init, c, hinit⟩ := (List.eq_nil_or_concat ('<' :: tag.inner)).resolve_left (List.cons_ne_nil _ _)
  rw [List.concat_eq_append] at hinit
  have htext : tag.text = init ++ [c] ++ ['>'] := by rw [htag.text_eq_inner, hinit]
  have hbody : tag.text.dropLast = init ++ [c] := by rw [htext, List.dropLast_concat]
  have hat : At html n (init ++ [c] ++ (['>'] ++ rest)) := by
    rw [htext] at h
    simpa using h
  obtain ⟨o, hlast, ho⟩ := hat.last_octet
  have hone : byteLength ['>'] = 1 := by decide
  have hpos : 0 < byteLength (init ++ [c]) := byteLength_pos (by simp)
  have hstop : (tagSpan n tag).stop - 1 = n + byteLength (init ++ [c]) := by
    rw [tagSpan, htext, byteLength_append _ ['>'], hone]
    rfl
  have hslash : (o == '/') = (c == '/') := by rw [Bool.eq_iff_iff, beq_iff_eq, beq_iff_eq, ho '/' (by decide)]
  rw [insertionPoint?, hstop, hlast, Option.some_beq_some, hslash, decide_eq_true (by omega), Bool.true_and,
    Document.spanAt, StartTag.insertionPoint, hbody]
  dsimp only
  split
  · rename_i hc
    obtain rfl := beq_iff_eq.1 hc
    have hslash : byteLength ['/'] = 1 := by decide
    obtain ⟨post, hpost, -⟩ := trimEnd_spec (· == ' ') init
    have htake : tag.text.take (trimEnd (· == ' ') init).length = trimEnd (· == ' ') init := by
      have hfront : trimEnd (· == ' ') init <+: tag.text := by
        rw [htext, List.append_assoc]
        exact List.IsPrefix.trans ⟨post, hpost.symm⟩ (List.prefix_append _ _)
      exact (List.prefix_iff_eq_take.1 hfront).symm
    have hbefore : n + byteLength (init ++ ['/']) - 1 = n + byteLength init := by
      rw [byteLength_append, hslash]
      rfl
    rw [stripEnd?_concat, hbefore]
    dsimp only
    rw [htake, tagSpan]
    exact retreat?_eq (t := ['/'] ++ (['>'] ++ rest)) (by simpa using hat)
  · rename_i hc
    have hends : endsWith ['/'] (init ++ [c]) = false := by
      rw [endsWith_concat]
      exact beq_eq_false_iff_ne.2 fun he => hc (beq_iff_eq.2 he.symm)
    rw [stripEnd?_eq_none hends, htext]
    dsimp only
    rw [List.take_left]

end Scanner

end EmailMarkup.Html
