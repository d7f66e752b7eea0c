import EmailMarkup.Proofs.Html.Bytes
import EmailMarkup.Proofs.Html.Tag
/-!
# Attributes at byte offsets

The attributes that the scanner reads between two offsets are those that `readAttributes` reads from the text between
them, and the `style` value stands at the same place (`attributes?_eq`). Each turn of the one loop takes the same item as a
turn of the other (`SameTurn`).
-/
namespace EmailMarkup.Html

open EmailMarkup.Text
open Document (byteLength)

theorem isAsciiBlank_of_high {c : Char} (hc : 128 ≤ c.toNat) : isAsciiBlank c = false := by
  have hne (q : Char) (hq : q.toNat < 128) : (c == q) = false := beq_eq_false_iff_ne.2 (ne_of_high hq hc)
  rw [isAsciiBlank, hne _ (by decide), hne _ (by decide), hne _ (by decide), hne _ (by decide), hne _ (by decide)]
  rfl

theorem uniform_isAsciiBlank : Uniform isAsciiBlank := uniform_of_forall fun _ hc => isAsciiBlank_of_high hc

theorem uniform_isNameChar : Uniform isNameChar := uniform_of_forall (v := true) fun c hc => by
  have hequals := ne_of_high (q := '=') (by decide) hc
  have hslash := ne_of_high (q := '/') (by decide) hc
  simp [isNameChar, isAsciiBlank_of_high hc, hequals, hslash]

theorem uniform_unquoted : Uniform fun c => !isAsciiBlank c && c != '>' := uniform_of_forall (v := true) fun c hc => by
  have hclose := ne_of_high (q := '>') (by decide) hc
  simp [isAsciiBlank_of_high hc, hclose]

namespace Scanner

variable {html : String}

/-- Going on stops at the first character that is not meant. -/
theorem advance?_span {p : Char → Bool} (hp : Uniform p) {n : Nat} {a b t : List Char} (h : At html n (a ++ (b ++ t)))
    (ha : ∀ c ∈ a, p c = true) (hb : ∀ c ∈ b.head?, p c = false) {limit : Nat} (hlimit : limit = n + byteLength (a ++ b)) :
    advance? html p limit n = some (n + byteLength a) := by
  rw [← List.append_assoc] at h
  rw [hlimit, h.advance?_eq hp, (span_append ha hb).1]

theorem findIdx?_octets_none {q : Char} (hq : q.toNat < 128) {value : List Char} (hvalue : q ∉ value) :
    (octets value).findIdx? (· == q) = none := by
  rw [List.findIdx?_eq_none_iff]
  intro o ho
  rw [beq_eq_false_iff_ne]
  rintro rfl
  exact hvalue ((mem_octets hq).1 ho)

theorem findIdx?_octets {q : Char} (hq : q.toNat < 128) {value : List Char} (hvalue : q ∉ value) (rest : List Char) :
    (octets (value ++ q :: rest)).findIdx? (· == q) = some (byteLength value) := by
  have hone : octets [q] = [q] := octets_ascii (by simpa using hq)
  rw [octets_append, octets_cons, hone, List.findIdx?_append, findIdx?_octets_none hq hvalue]
  simp [List.findIdx?_cons, length_octets]

/-- A value in quotes, closed or not. -/
theorem value?_quoted {n : Nat} {q : Char} {value s t : List Char} (h : At html n (s ++ t)) (hquoted : QuotedAt q value s) :
    ∃ item rest, s = item ++ rest ∧ item ≠ [] ∧ readValue s = (value, rest, true) ∧ value? html (n + byteLength s) n =
      some (String.ofList value, some (n + 1, n + 1 + byteLength value), n + byteLength item) := by
  have hq : q.toNat < 128 := by rcases hquoted.isQuote with rfl | rfl <;> decide
  have hone : byteLength [q] = 1 := byteLength_ascii (by simpa using hq)
  have hisQuote : (q == '"' || q == '\'') = true := by simpa using hquoted.isQuote
  have hfirst : octet? html n = some q := by
    rw [h.octet?_iff hq]
    rcases hquoted.eq with rfl | ⟨rest, rfl⟩ <;> rfl
  have hall : ∀ c ∈ value, (c != q) = true := fun c hc => by simpa using ne_of_mem_of_not_mem hc hquoted.not_mem
  rcases hquoted.eq with rfl | ⟨rest, rfl⟩
  · have hspan := (span_append hall (r := []) (by simp)).1
    rw [List.append_nil] at hspan
    have hbehind : At html (n + 1) (value ++ t) := hone ▸ At.append (s := [q]) h
    have hlimit : n + byteLength (q :: value) = n + 1 + byteLength value := by rw [byteLength_cons, hone, Nat.add_assoc]
    refine ⟨q :: value, [], by simp, by simp, by simp [readValue, hquoted.isQuote, hspan], ?_⟩
    rw [hlimit, value?, hfirst, Option.bind_eq_bind, Option.bind_some, if_pos hisQuote, hbehind.slice?_eq]
    simp [findIdx?_octets_none hq hquoted.not_mem, hbehind.slice?_eq]
  · have hspan := (span_append hall (r := q :: rest) (by simp)).1
    have hbehind : At html (n + 1) ((value ++ q :: rest) ++ t) := hone ▸ At.append (s := [q]) h
    have hvalue : At html (n + 1) (value ++ (q :: rest ++ t)) := by rwa [List.append_assoc] at hbehind
    have hlimit : n + byteLength (q :: (value ++ q :: rest)) = n + 1 + byteLength (value ++ q :: rest) := by
      rw [byteLength_cons, hone, Nat.add_assoc]
    have hnext : min (n + 1 + byteLength value + 1) (n + 1 + byteLength (value ++ q :: rest)) =
        n + byteLength (q :: (value ++ [q])) := by
      rw [byteLength_cons, byteLength_append, byteLength_append, byteLength_cons q rest, hone]
      omega
    refine ⟨q :: (value ++ [q]), rest, by simp, by simp, by simp [readValue, hquoted.isQuote, hspan], ?_⟩
    rw [hlimit, value?, hfirst, Option.bind_eq_bind, Option.bind_some, if_pos hisQuote, hbehind.slice?_eq]
    simp [findIdx?_octets hq hquoted.not_mem, hvalue.slice?_eq, hnext]

/-- A value without quotes. -/
theorem value?_unquoted {n : Nat} {s t : List Char} (h : At html n (s ++ t)) (hne : s ≠ [])
    (hquote : ∀ c ∈ s.head?, ¬(c = '"' ∨ c = '\'')) : ∃ value rest, s = value ++ rest ∧
      readValue s = (value, rest, false) ∧
      value? html (n + byteLength s) n = some (String.ofList value, none, n + byteLength value) := by
  obtain ⟨value, rest, rfl, hvalue, hrest⟩ := exists_span (fun c => !isAsciiBlank c && c != '>') s
  have hread : readValue (value ++ rest) = (value, rest, false) := by
    have hspan := (span_append hvalue hrest).1
    have hdrop : (value ++ rest).drop value.length = rest := List.drop_left
    obtain ⟨c, r, hc⟩ := List.exists_cons_of_ne_nil hne
    rw [hc] at hspan hdrop hquote ⊢
    simp only [readValue]
    simp [hquote c rfl, hspan, hdrop]
  refine ⟨value, rest, rfl, hread, ?_⟩
  rw [List.append_assoc] at h
  obtain ⟨o, hfirst, ho⟩ := h.exists_octet (by rw [← List.append_assoc]; exact List.append_ne_nil_of_left_ne_nil hne t)
  have hnot : ¬(o == '"' || o == '\'') = true := by
    rw [← List.append_assoc, List.head?_append_of_ne_nil _ hne] at ho
    simp only [Bool.or_eq_true, beq_iff_eq]
    rintro (hoq | hoq)
    · exact hquote _ ((ho _ (by decide)).1 hoq) (.inl rfl)
    · exact hquote _ ((ho _ (by decide)).1 hoq) (.inr rfl)
  rw [value?, hfirst, Option.bind_eq_bind, Option.bind_some, if_neg hnot, advance?_span uniform_unquoted h hvalue hrest rfl]
  simp [h.slice?_eq]

/-- Where a part of a text stands that begins at `start`. The part is given by its place and its length, in
characters. -/
def placeIn (start : Nat) (whole : List Char) (part : Nat × Nat) : Nat × Nat :=
  (start + byteLength (whole.take part.1), start + byteLength (whole.take (part.1 + part.2)))

theorem lower_ofList (s : List Char) : lower (String.ofList s) = attributeKey s := by
  rw [lower, String.toList_ofList]
  rfl

theorem equalsAt?_eq {n : Nat} {s t : List Char} (h : At html n (s ++ t)) :
    equalsAt? html (n + byteLength s) n = some (s.head? == some '=') := by
  rw [equalsAt?]
  cases s with
  | nil => rw [if_pos (by simp [byteLength])]; rfl
  | cons c s =>
    have hpos := byteLength_pos (List.cons_ne_nil c s)
    obtain ⟨o, hfirst, ho⟩ := h.exists_octet (by simp)
    have hequals : (o == '=') = (c == '=') := by
      rw [Bool.eq_iff_iff, beq_iff_eq, beq_iff_eq, ho '=' (by decide)]
      exact Option.some_inj
    rw [if_neg (by omega), hfirst, Option.map_some, hequals]
    rfl

/-- A name is read, and what stands behind it and the blanks after it is looked at. -/
theorem attributes?_named {n : Nat} {b name r t : List Char} (h : At html n ((b ++ (name ++ r)) ++ t))
    (hb : ∀ c ∈ b, isAsciiBlank c = true) (hne : name ≠ []) (hname : ∀ c ∈ name, isNameChar c = true)
    (hr : ∀ c ∈ r.head?, isNameChar c = false) (fuel : Nat) (found : Attributes) (style : Option (Nat × Nat)) :
    attributes? html (n + byteLength (b ++ (name ++ r))) (fuel + 1) found style n =
      (do
        let limit := n + byteLength (b ++ (name ++ r))
        let pos ← advance? html isAsciiBlank limit (n + byteLength (b ++ name))
        if ← equalsAt? html limit pos then
          let pos ← advance? html isAsciiBlank limit (pos + 1)
          if limit ≤ pos then attributes? html limit fuel (found.insert (attributeKey name) "") style pos
          else
            let (value, place, next) ← value? html limit pos
            attributes? html limit fuel (found.insert (attributeKey name) value)
              (if attributeKey name == "style" then place.or style else style) next
        else attributes? html limit fuel (found.insert (attributeKey name) "") style pos) := by
  have hblank : ∀ c ∈ (name ++ r).head?, isAsciiBlank c = false := by
    obtain ⟨c, name, rfl⟩ := List.exists_cons_of_ne_nil hne
    intro d hd
    obtain rfl := Option.some.inj hd
    exact not_isAsciiBlank_of_isNameChar (hname c (by simp))
  have hat : At html n (b ++ ((name ++ r) ++ t)) := by rwa [List.append_assoc] at h
  have hat' : At html (n + byteLength b) (name ++ (r ++ t)) := by
    have hnext := hat.append
    rwa [List.append_assoc] at hnext
  have hlimit : n + byteLength (b ++ (name ++ r)) = n + byteLength b + byteLength (name ++ r) := by
    rw [byteLength_append, Nat.add_assoc]
  have hstop : n + byteLength b + byteLength name = n + byteLength (b ++ name) := by rw [byteLength_append, Nat.add_assoc]
  have hpos := byteLength_pos hne
  have hbefore : ¬n + byteLength (b ++ (name ++ r)) ≤ n + byteLength b := by
    rw [hlimit, byteLength_append]
    omega
  have hmoved : ¬n + byteLength b + byteLength name = n + byteLength b := by omega
  rw [attributes?, advance?_span uniform_isAsciiBlank hat hb hblank rfl, Option.bind_eq_bind, Option.bind_some,
    if_neg hbefore, advance?_span uniform_isNameChar hat' hname hr hlimit, Option.bind_some, if_neg hmoved,
    hat'.slice?_eq]
  simp only [Option.bind_eq_bind, Option.bind_some, lower_ofList, hstop]

/-- The place of a quoted value. -/
theorem placeIn_quoted {start : Nat} {whole text done s value : List Char} {q : Char} (hvalue : QuotedAt q value s)
    (hwhole : whole = done ++ s) (htext : whole <+: text) :
    placeIn start text (whole.length - s.length + 1, value.length) =
      (start + byteLength done + 1, start + byteLength done + 1 + byteLength value) := by
  obtain ⟨r, rfl⟩ : ∃ r, s = q :: (value ++ r) := by
    rcases hvalue.eq with heq | ⟨rest, heq⟩
    · exact ⟨[], by rw [heq, List.append_nil]⟩
    · exact ⟨q :: rest, heq⟩
  have hq : byteLength [q] = 1 := by rcases hvalue.isQuote with rfl | rfl <;> decide
  have hlength : whole.length - (q :: (value ++ r)).length = done.length := by
    rw [hwhole, List.length_append, Nat.add_sub_cancel]
  obtain ⟨t, rfl⟩ := htext
  have hsplit : whole ++ t = done ++ q :: (value ++ (r ++ t)) := by simp [hwhole]
  have hfirst : (whole ++ t).take (done.length + 1) = done ++ [q] := by
    rw [hsplit, List.take_length_add_append]
    rfl
  have hsecond : (whole ++ t).take (done.length + 1 + value.length) = (done ++ [q]) ++ value := by
    rw [hsplit, Nat.add_assoc, List.take_length_add_append, Nat.add_comm 1, List.take_succ_cons, List.take_left]
    simp
  have hquote : start + byteLength (done ++ [q]) = start + byteLength done + 1 := by rw [byteLength_append, hq, Nat.add_assoc]
  rw [placeIn, hlength, hfirst, hsecond, byteLength_append _ value, ← Nat.add_assoc, hquote]

/-- One turn of reading attributes takes the same item from the bytes behind `n` as from the characters `s`. The attributes
end with `whole`, which stands behind `start`, and `text` goes on behind them. -/
def SameTurn (html : String) (start : Nat) (whole text : List Char) (found : Attribution) (n : Nat) (s : List Char) : Prop :=
  ∀ fuel fuel', ∃ item rest next, s = item ++ rest ∧ item ≠ [] ∧
    readAttributes whole.length (fuel + 1) found s = readAttributes whole.length fuel next rest ∧
    attributes? html (start + byteLength whole) (fuel' + 1) found.attributes (found.style.map (placeIn start text)) n =
      attributes? html (start + byteLength whole) fuel' next.attributes (next.style.map (placeIn start text))
        (n + byteLength item)

section

variable {start : Nat} {whole text t : List Char} {found : Attribution} {n : Nat} {b name b' : List Char}
  (hb : ∀ c ∈ b, isAsciiBlank c = true) (hne : name ≠ []) (hname : ∀ c ∈ name, isNameChar c = true)
  (hb' : ∀ c ∈ b', isAsciiBlank c = true)

include hb in
theorem sameTurn_skip {r : List Char} {c : Char} (hc : isAsciiBlank c = false) (hname : isNameChar c = false)
    (h : At html n ((b ++ c :: r) ++ t)) (hlimit : start + byteLength whole = n + byteLength (b ++ c :: r)) :
    SameTurn html start whole text found n (b ++ c :: r) := by
  intro fuel fuel'
  have hskip : (b ++ c :: r).dropWhile isAsciiBlank = c :: r := (span_append hb (by simpa using hc)).2
  have hat : At html n (b ++ (c :: r ++ t)) := by rwa [List.append_assoc] at h
  have hone : byteLength [c] = 1 := by
    simp only [isNameChar, hc, Bool.not_false, Bool.and_true, Bool.and_eq_false_iff, bne_eq_false_iff_eq] at hname
    rcases hname with rfl | rfl <;> decide
  have hsum : n + byteLength (b ++ c :: r) = n + byteLength b + byteLength (c :: r) := by rw [byteLength_append, Nat.add_assoc]
  have hpos := byteLength_pos (List.cons_ne_nil c r)
  refine ⟨b ++ [c], r, found, by simp, by simp, ?_, ?_⟩
  · rw [readAttributes, hskip]
    simp [hname]
  · have hstay : advance? html isNameChar (n + byteLength (b ++ c :: r)) (n + byteLength b) = some (n + byteLength b) :=
      advance?_span uniform_isNameChar (a := []) (b := c :: r) hat.append (by simp) (by simpa using hname) hsum
    rw [attributes?, hlimit, advance?_span uniform_isAsciiBlank hat hb (by simpa using hc) rfl, Option.bind_eq_bind,
      Option.bind_some, if_neg (by omega), hstay, Option.bind_some, if_pos rfl, byteLength_append b [c], hone, Nat.add_assoc]

include hb hne hname hb' in
theorem sameTurn_bare {r : List Char} (hr : ∀ c ∈ (b' ++ r).head?, isNameChar c = false)
    (hblank : ∀ c ∈ r.head?, isAsciiBlank c = false) (heq : ∀ c ∈ r.head?, c ≠ '=')
    (h : At html n ((b ++ (name ++ (b' ++ r))) ++ t))
    (hlimit : start + byteLength whole = n + byteLength (b ++ (name ++ (b' ++ r)))) :
    SameTurn html start whole text found n (b ++ (name ++ (b' ++ r))) := by
  intro fuel fuel'
  have hskip : (b' ++ r).dropWhile isAsciiBlank = r := (span_append hb' hblank).2
  have hsplit : b ++ (name ++ (b' ++ r)) = (b ++ name) ++ (b' ++ r) := by simp
  have hat : At html (n + byteLength (b ++ name)) (b' ++ (r ++ t)) := by
    rw [hsplit, List.append_assoc] at h
    simpa using h.append
  have hsum : n + byteLength (b ++ (name ++ (b' ++ r))) = n + byteLength (b ++ name) + byteLength (b' ++ r) := by
    rw [hsplit, byteLength_append, Nat.add_assoc]
  have hsum' : n + byteLength (b ++ (name ++ (b' ++ r))) = n + byteLength (b ++ name) + byteLength b' + byteLength r := by
    rw [hsum, byteLength_append b' r, Nat.add_assoc _ (byteLength b')]
  have hnext : n + byteLength (b ++ name) + byteLength b' = n + byteLength (b ++ (name ++ b')) := by
    rw [← List.append_assoc b, byteLength_append (b ++ name), Nat.add_assoc]
  have hnot : (r.head? == some '=') = false := by
    rw [beq_eq_false_iff_ne]
    exact fun he => heq '=' he rfl
  have hequals := equalsAt?_eq hat.append
  rw [← hsum', hnot] at hequals
  refine ⟨b ++ (name ++ b'), r, ⟨found.attributes.insert (attributeKey name) "", found.style⟩, by simp, by simp [hne], ?_, ?_⟩
  · rw [readAttributes_named hb hne hname whole.length fuel found hr, hskip]
    split
    · exact absurd rfl (heq '=' rfl)
    · rfl
  · rw [hlimit, attributes?_named h hb hne hname hr]
    dsimp only
    rw [advance?_span uniform_isAsciiBlank hat hb' hblank hsum, Option.bind_eq_bind, Option.bind_some, hequals, hnext]
    rfl

include hb hne hname hb' in
/-- Behind a name and an equals sign the value is read. -/
theorem attributes?_equals {b'' s : List Char} (hb'' : ∀ c ∈ b'', isAsciiBlank c = true)
    (hs : ∀ c ∈ s.head?, isAsciiBlank c = false) (h : At html n ((b ++ (name ++ (b' ++ '=' :: (b'' ++ s)))) ++ t)) {limit : Nat}
    (hlimit : limit = n + byteLength (b ++ (name ++ (b' ++ '=' :: (b'' ++ s))))) (fuel : Nat) (found : Attributes)
    (style : Option (Nat × Nat)) : attributes? html limit (fuel + 1) found style n =
      (do
        let pos := n + byteLength (b ++ (name ++ (b' ++ '=' :: b'')))
        if limit ≤ pos then attributes? html limit fuel (found.insert (attributeKey name) "") style pos
        else
          let (value, place, next) ← value? html limit pos
          attributes? html limit fuel (found.insert (attributeKey name) value)
            (if attributeKey name == "style" then place.or style else style) next) := by
  have hhead := not_isNameChar_head_equals hb' (b'' ++ s)
  have hblank : ∀ c ∈ ('=' :: (b'' ++ s)).head?, isAsciiBlank c = false := by
    intro c hc
    obtain rfl := Option.some.inj hc
    rfl
  have hone : byteLength ['='] = 1 := by decide
  have hbehind : At html (n + byteLength (b ++ name)) (b' ++ ('=' :: (b'' ++ s) ++ t)) :=
    At.append (by simpa using h)
  have hequals : At html (n + byteLength (b ++ name) + byteLength b') ('=' :: (b'' ++ s) ++ t) := hbehind.append
  have hvalue : At html (n + byteLength (b ++ name) + byteLength b' + 1) (b'' ++ (s ++ t)) :=
    hone ▸ At.append (s := ['=']) (by simpa using hequals)
  have hsum : limit = n + byteLength (b ++ name) + byteLength (b' ++ '=' :: (b'' ++ s)) := by
    rw [hlimit, ← List.append_assoc b, byteLength_append (b ++ name), Nat.add_assoc]
  have hsum' : limit = n + byteLength (b ++ name) + byteLength b' + byteLength ('=' :: (b'' ++ s)) := by
    rw [hsum, byteLength_append b', Nat.add_assoc _ (byteLength b')]
  have hsum'' : limit = n + byteLength (b ++ name) + byteLength b' + 1 + byteLength (b'' ++ s) := by
    rw [hsum', byteLength_cons, hone, ← Nat.add_assoc]
  have hpos : n + byteLength (b ++ name) + byteLength b' + 1 + byteLength b'' =
      n + byteLength (b ++ (name ++ (b' ++ '=' :: b''))) := by
    rw [← List.append_assoc b, byteLength_append (b ++ name), byteLength_append b', byteLength_cons '=', hone]
    omega
  have htrue : equalsAt? html limit (n + byteLength (b ++ name) + byteLength b') = some true := by
    rw [hsum', equalsAt?_eq hequals]
    rfl
  rw [hlimit, attributes?_named h hb hne hname hhead, ← hlimit]
  dsimp only
  rw [advance?_span uniform_isAsciiBlank hbehind hb' hblank hsum, Option.bind_eq_bind, Option.bind_some, htrue]
  simp only [Option.bind_eq_bind, Option.bind_some, if_true, advance?_span uniform_isAsciiBlank hvalue hb'' hs hsum'', hpos]

include hb hne hname hb' in
theorem sameTurn_value {done b'' s : List Char} (hb'' : ∀ c ∈ b'', isAsciiBlank c = true)
    (hs : ∀ c ∈ s.head?, isAsciiBlank c = false) (h : At html n ((b ++ (name ++ (b' ++ '=' :: (b'' ++ s)))) ++ t))
    (hn : n = start + byteLength done) (hwhole : whole = done ++ (b ++ (name ++ (b' ++ '=' :: (b'' ++ s)))))
    (htext : whole <+: text) :
    SameTurn html start whole text found n (b ++ (name ++ (b' ++ '=' :: (b'' ++ s)))) := by
  intro fuel fuel'
  have hskip : (b' ++ '=' :: (b'' ++ s)).dropWhile isAsciiBlank = '=' :: (b'' ++ s) :=
    (span_append hb' fun c hc => by obtain rfl := Option.some.inj hc; rfl).2
  have hskip' : (b'' ++ s).dropWhile isAsciiBlank = s := (span_append hb'' hs).2
  have hlimit : start + byteLength whole = n + byteLength (b ++ (name ++ (b' ++ '=' :: (b'' ++ s)))) := by
    rw [hwhole, hn, byteLength_append, Nat.add_assoc]
  have hread := readAttributes_named hb hne hname whole.length fuel found (not_isNameChar_head_equals hb' (b'' ++ s))
  rw [hskip] at hread
  simp only [hskip'] at hread
  rw [hread, attributes?_equals hb hne hname hb' hb'' hs h hlimit]
  -- What stands before the value is taken whatever the value is.
  obtain ⟨pre, hpre⟩ : ∃ pre, pre = b ++ (name ++ (b' ++ '=' :: b'')) := ⟨_, rfl⟩
  have hsplit : b ++ (name ++ (b' ++ '=' :: (b'' ++ s))) = pre ++ s := by simp [hpre]
  have hprene : pre ≠ [] := by simp [hpre, hne]
  rw [hsplit] at h hlimit hwhole ⊢
  rw [← hpre]
  have hat : At html (n + byteLength pre) (s ++ t) := At.append (by rwa [List.append_assoc] at h)
  rw [byteLength_append, ← Nat.add_assoc] at hlimit
  rw [hlimit]
  by_cases hq : ∃ q r, (q = '"' ∨ q = '\'') ∧ s = q :: r
  · obtain ⟨q, r, hq, rfl⟩ := hq
    obtain ⟨value, hvalue⟩ := exists_quotedAt hq r
    obtain ⟨item, rest, hitem, hitemne, hread, hscan⟩ := value?_quoted hat hvalue
    have hpos := byteLength_pos (List.cons_ne_nil q r)
    refine ⟨pre ++ item, rest, _, by rw [hitem, List.append_assoc], by simp [hprene], by rw [hread], ?_⟩
    have hplace : placeIn start text (whole.length - (q :: r).length + 1, value.length) =
        (n + byteLength pre + 1, n + byteLength pre + 1 + byteLength value) := by
      have hbefore : whole = (done ++ pre) ++ q :: r := by rw [hwhole, List.append_assoc]
      rw [placeIn_quoted hvalue hbefore htext, hn, byteLength_append done pre, ← Nat.add_assoc start]
    dsimp only
    rw [if_neg (by omega), hscan, byteLength_append, Nat.add_assoc _ _ (byteLength item)]
    by_cases hkey : attributeKey name = "style"
    · rw [List.length_cons] at hplace
      simp [hkey, hplace]
    · simp [hkey]
  · have hnot : ∀ c ∈ s.head?, ¬(c = '"' ∨ c = '\'') := by
      intro c hc hquote
      cases s with
      | nil => simp at hc
      | cons d s => exact hq ⟨d, s, Option.some.inj hc ▸ hquote, rfl⟩
    by_cases hsne : s = []
    · subst hsne
      exact ⟨pre, [], _, rfl, hprene, rfl, if_pos (Nat.le_refl _)⟩
    · obtain ⟨value, rest, hitem, hread, hscan⟩ := value?_unquoted hat hsne hnot
      have hpos := byteLength_pos hsne
      refine ⟨pre ++ value, rest, _, by rw [hitem, List.append_assoc], by simp [hprene], by rw [hread], ?_⟩
      dsimp only
      rw [if_neg (by omega), hscan, byteLength_append, Nat.add_assoc]
      simp

end

/-- Reading attributes between two offsets ends at blanks, and takes its turn with anything else. -/
theorem blank_or_sameTurn {start : Nat} {whole text t done s : List Char} (h : At html start (whole ++ t))
    (hwhole : whole = done ++ s) (htext : whole <+: text) (found : Attribution) :
    (∀ c ∈ s, isAsciiBlank c = true) ∨ SameTurn html start whole text found (start + byteLength done) s := by
  have hat : At html (start + byteLength done) (s ++ t) := by
    rw [hwhole, List.append_assoc] at h
    exact h.append
  have hlimit : start + byteLength whole = start + byteLength done + byteLength s := by
    rw [hwhole, byteLength_append, Nat.add_assoc]
  cases exists_shape s with
  | blank hb => exact .inl hb
  | skip hb hc hname => exact .inr (sameTurn_skip hb hc hname hat hlimit)
  | bare hb hne hn hb' hr hblank heq => exact .inr (sameTurn_bare hb hne hn hb' hr hblank heq hat hlimit)
  | value hb hne hn hb' hb'' hs => exact .inr (sameTurn_value hb hne hn hb' hb'' hs hat rfl hwhole htext)

/-- The attributes between two offsets are those of the text between them. -/
theorem attributes?_eq {start : Nat} {whole text t done s : List Char} (h : At html start (whole ++ t))
    (hwhole : whole = done ++ s) (htext : whole <+: text) (found : Attribution) {fuel fuel' : Nat} (hfuel : s.length ≤ fuel)
    (hfuel' : s.length < fuel') :
    attributes? html (start + byteLength whole) fuel' found.attributes (found.style.map (placeIn start text))
        (start + byteLength done) =
      some ((readAttributes whole.length fuel found s).attributes,
        (readAttributes whole.length fuel found s).style.map (placeIn start text)) := by
  induction fuel' generalizing found done s fuel with
  | zero => omega
  | succ fuel' ih =>
    rcases blank_or_sameTurn h hwhole htext found with hb | hturn
    · have hskip : s.dropWhile isAsciiBlank = [] := by simpa using (span_append hb (r := []) (by simp)).2
      have hread : readAttributes whole.length fuel found s = found := by
        cases fuel with
        | zero => rfl
        | succ fuel => rw [readAttributes, hskip]
      have hat : At html (start + byteLength done) (s ++ ([] ++ t)) := by
        rw [hwhole, List.append_assoc] at h
        exact h.append
      have hlimit : start + byteLength whole = start + byteLength done + byteLength (s ++ []) := by
        rw [hwhole, byteLength_append, Nat.add_assoc, List.append_nil]
      rw [attributes?, advance?_span uniform_isAsciiBlank hat hb (by simp) hlimit, hread, hlimit]
      simp
    · cases fuel with
      | zero =>
        obtain rfl := List.eq_nil_of_length_eq_zero (Nat.le_zero.1 hfuel)
        obtain ⟨item, rest, -, hnil, hne, -⟩ := hturn 0 fuel'
        exact absurd (List.append_eq_nil_iff.1 hnil.symm).1 hne
      | succ fuel =>
        obtain ⟨item, rest, next, rfl, hne, hread, hscan⟩ := hturn fuel fuel'
        have hpos := List.length_pos_iff.2 hne
        rw [List.length_append] at hfuel hfuel'
        rw [hread, hscan, Nat.add_assoc, ← byteLength_append]
        exact ih (by rw [hwhole, List.append_assoc]) next (by omega) (by omega)

end Scanner

end EmailMarkup.Html
