import EmailMarkup.Html.Scanner
import EmailMarkup.Proofs.Text.Blank
import EmailMarkup.Proofs.Text.Nesting
import EmailMarkup.Proofs.Text.Splice
/-!
# Offsets between characters

Texts are cut at offsets that count bytes. `At html n s` says that the offset `n` of `html` stands between two
characters, and that `s` is what follows it. Between two such offsets there is a text to cut out (`At.slice?_eq`), and
going on by bytes that are told apart from no other byte of a longer character ends at such an offset again
(`At.advance?_eq`).
-/
namespace EmailMarkup.Html

open EmailMarkup.Text
open Document (byteLength)

/-! ## Bytes -/

@[simp] theorem bytes_append (s t : List Char) : bytes (s ++ t) = bytes s ++ bytes t := List.flatMap_append

theorem length_bytes (s : List Char) : (bytes s).length = byteLength s := by
  have hfold (n : Nat) : s.foldl (fun n c => n + c.utf8Size) n = n + (bytes s).length := by
    induction s generalizing n with
    | nil => rfl
    | cons c s ih =>
      have hcons : bytes (c :: s) = String.utf8EncodeChar c ++ bytes s := rfl
      rw [List.foldl_cons, ih, hcons, List.length_append, String.length_utf8EncodeChar, Nat.add_assoc]
  rw [byteLength, hfold, Nat.zero_add]

theorem byteLength_append (s t : List Char) : byteLength (s ++ t) = byteLength s + byteLength t := by
  rw [← length_bytes, bytes_append, List.length_append, length_bytes, length_bytes]

theorem byteLength_cons (c : Char) (s : List Char) : byteLength (c :: s) = byteLength [c] + byteLength s :=
  byteLength_append [c] s

theorem byteLength_pos {s : List Char} (h : s ≠ []) : 0 < byteLength s := by
  obtain ⟨c, s, rfl⟩ := List.exists_cons_of_ne_nil h
  have hcons : c :: s = [c] ++ s := rfl
  have hone : byteLength [c] = c.utf8Size := Nat.zero_add _
  rw [hcons, byteLength_append, hone]
  exact Nat.add_pos_left c.utf8Size_pos _

theorem length_le_byteLength (s : List Char) : s.length ≤ byteLength s := by
  induction s with
  | nil => exact Nat.le_refl 0
  | cons c s ih =>
    have hpos := byteLength_pos (List.cons_ne_nil c [])
    rw [byteLength_cons, List.length_cons]
    omega

theorem toByteArray_eq (s : String) : s.toByteArray.data.toList = bytes s.toList := by
  conv => lhs; rw [← String.ofList_toList (s := s)]
  rw [String.toByteArray_ofList, List.utf8Encode]
  simp [bytes]

theorem utf8ByteSize_eq (s : String) : s.utf8ByteSize = byteLength s.toList := by
  rw [← length_bytes, ← toByteArray_eq]
  rfl

/-- The end of a front part of a text is a character boundary. -/
theorem isValid_of_append {html : String} {pre post : List Char} (h : html.toList = pre ++ post) :
    String.Pos.Raw.IsValid html ⟨byteLength pre⟩ := by
  refine String.Pos.Raw.isValid_iff_exists_append.2 ⟨String.ofList pre, String.ofList post, ?_, ?_⟩
  · rw [← String.ofList_append, ← h, String.ofList_toList]
  · rw [String.rawEndPos, utf8ByteSize_eq, String.toList_ofList]

/-! ## Bytes as characters -/

theorem octets_append (s t : List Char) : octets (s ++ t) = octets s ++ octets t := by
  rw [octets, bytes_append, List.map_append]
  rfl

theorem octets_cons (c : Char) (s : List Char) : octets (c :: s) = octets [c] ++ octets s := octets_append [c] s

theorem length_octets (s : List Char) : (octets s).length = byteLength s := by rw [octets, List.length_map, length_bytes]

theorem toNat_ofUInt8 (b : UInt8) : (Char.ofUInt8 b).toNat = b.toNat := b.toNat_toUInt32

/-- An ASCII character is its byte. All others have several bytes, and none of them is that of an ASCII character. -/
theorem octets_singleton (c : Char) : c.toNat < 128 ∧ octets [c] = [c] ∨
    128 ≤ c.toNat ∧ octets [c] ≠ [] ∧ ∀ o ∈ octets [c], 128 ≤ o.toNat := by
  have hbytes : octets [c] = (String.utf8EncodeChar c).map Char.ofUInt8 := by simp [octets, bytes]
  rw [hbytes, String.utf8EncodeChar]
  have hnat : c.val.toNat = c.toNat := rfl
  have hhigh (n : Nat) (hn : 128 ≤ n) (hn' : n < 256) : 128 ≤ (Char.ofUInt8 (UInt8.ofNat n)).toNat := by
    rw [toNat_ofUInt8, UInt8.toNat_ofNat', Nat.mod_eq_of_lt hn']
    exact hn
  split
  · rename_i h
    refine .inl ⟨by omega, ?_⟩
    have hchar : Char.ofUInt8 (UInt8.ofNat c.val.toNat) = c := by
      refine Char.toNat_inj.1 ?_
      rw [toNat_ofUInt8, UInt8.toNat_ofNat', hnat]
      omega
    rw [List.map_cons, hchar, List.map_nil]
  · refine .inr ⟨by omega, ?_⟩
    split
    · refine ⟨by simp, List.forall_mem_cons.2 ⟨hhigh _ ?_ ?_, List.forall_mem_singleton.2 (hhigh _ ?_ ?_)⟩⟩ <;> omega
    · split
      · refine ⟨by simp, List.forall_mem_cons.2 ⟨hhigh _ ?_ ?_, List.forall_mem_cons.2 ⟨hhigh _ ?_ ?_,
          List.forall_mem_singleton.2 (hhigh _ ?_ ?_)⟩⟩⟩ <;> omega
      · refine ⟨by simp, List.forall_mem_cons.2 ⟨hhigh _ ?_ ?_, List.forall_mem_cons.2 ⟨hhigh _ ?_ ?_,
          List.forall_mem_cons.2 ⟨hhigh _ ?_ ?_, List.forall_mem_singleton.2 (hhigh _ ?_ ?_)⟩⟩⟩⟩ <;> omega

theorem octets_ascii {s : List Char} (hs : ∀ c ∈ s, c.toNat < 128) : octets s = s := by
  induction s with
  | nil => rfl
  | cons c s ih =>
    obtain ⟨hc, hs⟩ := List.forall_mem_cons.1 hs
    rcases octets_singleton c with ⟨-, hone⟩ | ⟨hhigh, -⟩
    · rw [octets_cons, hone, ih hs, List.singleton_append]
    · omega

theorem byteLength_ascii {s : List Char} (hs : ∀ c ∈ s, c.toNat < 128) : byteLength s = s.length := by
  rw [← length_octets, octets_ascii hs]

theorem mem_octets {q : Char} (hq : q.toNat < 128) {s : List Char} : q ∈ octets s ↔ q ∈ s := by
  induction s with
  | nil => rfl
  | cons c s ih =>
    rw [octets_cons, List.mem_append, List.mem_cons, ih]
    refine or_congr_left ?_
    rcases octets_singleton c with ⟨-, hone⟩ | ⟨hc, -, hhigh⟩
    · rw [hone, List.mem_singleton]
    · constructor
      · intro h
        have := hhigh q h
        omega
      · rintro rfl
        omega

/-- The first byte of a text, and the first character of it. -/
theorem head?_octets {q : Char} (hq : q.toNat < 128) (s : List Char) : (octets s).head? = some q ↔ s.head? = some q := by
  cases s with
  | nil => rfl
  | cons c s =>
    rw [octets_cons]
    rcases octets_singleton c with ⟨-, hone⟩ | ⟨hc, hne, hhigh⟩
    · rw [hone]
      rfl
    · obtain ⟨o, os, ho⟩ := List.exists_cons_of_ne_nil hne
      have hfirst := hhigh o (by simp [ho])
      rw [ho]
      constructor
      · rintro h
        obtain rfl := Option.some.inj h
        omega
      · rintro h
        obtain rfl := Option.some.inj h
        omega

/-- A text of single bytes has no other characters than those of ASCII. -/
theorem not_mem_of_ascii {s : String} (hs : s.toByteArray.data.toList.all (fun b => b.toNat < 128) = true) {c : Char}
    (hc : 128 ≤ c.toNat) : c ∉ s.toList := by
  intro hmem
  rcases octets_singleton c with ⟨hlow, -⟩ | ⟨-, hne, hhigh⟩
  · omega
  · obtain ⟨o, ho⟩ := List.exists_mem_of_ne_nil _ hne
    obtain ⟨pre, post, hsplit⟩ := List.append_of_mem hmem
    have hmem : o ∈ octets s.toList := by
      rw [hsplit, octets_append, octets_cons]
      simp [ho]
    obtain ⟨b, hb, rfl⟩ := List.mem_map.1 hmem
    rw [toByteArray_eq] at hs
    have hlow : b.toNat < 128 := by simpa using List.all_eq_true.1 hs b hb
    have hcode := toNat_ofUInt8 b
    have := hhigh _ ho
    omega

/-- No two characters beyond ASCII are told apart. -/
def Uniform (p : Char → Bool) : Prop := ∀ c d : Char, 128 ≤ c.toNat → 128 ≤ d.toNat → p c = p d

theorem uniform_of_forall {p : Char → Bool} {v : Bool} (h : ∀ c : Char, 128 ≤ c.toNat → p c = v) : Uniform p :=
  fun c d hc hd => (h c hc).trans (h d hd).symm

theorem ne_of_high {q c : Char} (hq : q.toNat < 128) (hc : 128 ≤ c.toNat) : c ≠ q := by
  rintro rfl
  omega

/-- Reading on by bytes ends where reading on by characters does. -/
theorem takeWhile_octets {p : Char → Bool} (hp : Uniform p) (s : List Char) :
    (octets s).takeWhile p = octets (s.takeWhile p) := by
  induction s with
  | nil => rfl
  | cons c s ih =>
    rw [octets_cons]
    rcases octets_singleton c with ⟨-, hone⟩ | ⟨hc, hne, hhigh⟩
    · rw [hone, List.singleton_append, List.takeWhile_cons, List.takeWhile_cons]
      split
      · rw [octets_cons, hone, ih, List.singleton_append]
      · rfl
    · have hall : ∀ o ∈ octets [c], p o = p c := fun o ho => hp o c (hhigh o ho) hc
      rw [List.takeWhile_cons]
      split
      · rename_i hpc
        rw [List.takeWhile_append_of_pos fun o ho => (hall o ho).trans hpc, octets_cons c (s.takeWhile p), ih]
      · rename_i hpc
        obtain ⟨o, os, ho⟩ := List.exists_cons_of_ne_nil hne
        rw [ho, List.cons_append, List.takeWhile_cons, hall o (by simp [ho]), if_neg hpc]
        rfl

/-! ## Searching by bytes -/

theorem toLower_of_high {c : Char} (hc : 128 ≤ c.toNat) : c.toLower = c := toLower_eq_self (by omega)

theorem toLower_ascii {c : Char} (hc : c.toNat < 128) : c.toLower.toNat < 128 := by
  rcases toLower_cases c with h | h
  · rwa [h]
  · omega

theorem toLower_ne_of_high {p o : Char} (hp : p.toNat < 128) (ho : 128 ≤ o.toNat) : p.toLower ≠ o.toLower := by
  rw [toLower_of_high ho]
  exact (ne_of_high (toLower_ascii hp) ho).symm

theorem stripFold?_octets {pat : List Char} (hpat : ∀ p ∈ pat, p.toNat < 128) (s : List Char) :
    stripFold? pat (octets s) = (stripFold? pat s).map octets := by
  induction pat generalizing s with
  | nil => rfl
  | cons p ps ih =>
    obtain ⟨hp, hps⟩ := List.forall_mem_cons.1 hpat
    cases s with
    | nil => rfl
    | cons c s =>
      rw [octets_cons]
      rcases octets_singleton c with ⟨hc, hone⟩ | ⟨hc, hne, hhigh⟩
      · rw [hone, List.singleton_append, stripFold?, stripFold?]
        split
        · exact ih hps s
        · rfl
      · obtain ⟨o, os, ho⟩ := List.exists_cons_of_ne_nil hne
        have hfirst := hhigh o (by simp [ho])
        rw [ho, List.cons_append, stripFold?_cons_of_ne (toLower_ne_of_high hp hfirst),
          stripFold?_cons_of_ne (toLower_ne_of_high hp hc)]
        rfl

theorem cutFold_octets {pat : List Char} (hne : pat ≠ []) (hpat : ∀ p ∈ pat, p.toNat < 128) (s : List Char) :
    cutFold pat (octets s) = (cutFold pat s).map fun (before, after) => (octets before, octets after) := by
  obtain ⟨p, ps, rfl⟩ := List.exists_cons_of_ne_nil hne
  have hp := hpat p (by simp)
  induction s with
  | nil => rfl
  | cons c s ih =>
    have hstrip := stripFold?_octets hpat (c :: s)
    rw [octets_cons] at hstrip ⊢
    rcases octets_singleton c with ⟨hc, hone⟩ | ⟨hc, hne, hhigh⟩
    · rw [hone, List.singleton_append] at hstrip ⊢
      rw [cutFold, cutBy, hstrip, cutFold, cutBy]
      cases hfound : stripFold? (p :: ps) (c :: s) with
      | some r => rfl
      | none =>
        have ih : cutBy (stripFold? (p :: ps)) (octets s) = _ := ih
        rw [ih, cutFold]
        cases cutBy (stripFold? (p :: ps)) s with
        | none => rfl
        | some r => simp [octets_cons c r.1, hone]
    · have hnone (o : Char) (ho : o ∈ octets [c]) (t : List Char) : stripFold? (p :: ps) (o :: t) = none :=
        stripFold?_cons_of_ne (toLower_ne_of_high hp (hhigh o ho)) ps t
      have ih : cutBy (stripFold? (p :: ps)) (octets s) = _ := ih
      rw [cutFold, cutBy_pass hnone, ih, cutFold, cutFold, cutBy, stripFold?_cons_of_ne (toLower_ne_of_high hp hc)]
      cases cutBy (stripFold? (p :: ps)) s with
      | none => rfl
      | some r => simp [octets_cons c r.1]

/-- A search outside quotes, with no brackets, is where it was behind bytes that are no quote. -/
theorem step_of_high {n : Nesting} (hn : ∀ q ∈ n.quote, q.toNat < 128) {c : Char} (hc : 128 ≤ c.toNat) :
    n.step ⟨[], []⟩ c = n := by
  rw [Nesting.step]
  split
  · rename_i q hq
    rw [if_neg (ne_of_high (hn q hq) hc)]
  · rw [if_neg (by rintro (rfl | rfl) <;> revert hc <;> decide)]
    rfl

theorem quote_step {n : Nesting} (hn : ∀ q ∈ n.quote, q.toNat < 128) (c : Char) :
    ∀ q ∈ (n.step ⟨[], []⟩ c).quote, q.toNat < 128 := by
  rw [Nesting.step]
  split
  · split
    · simp
    · exact hn
  · split
    · rename_i hc
      intro q hq
      obtain rfl := Option.some.inj hq
      rcases hc with rfl | rfl <;> decide
    · exact hn

theorem cutOutside_pass {n : Nesting} (hn : ∀ q ∈ n.quote, q.toNat < 128) {os : List Char} (hos : ∀ o ∈ os, 128 ≤ o.toNat)
    (t : List Char) : cutOutside ⟨[], []⟩ '>' n (os ++ t) =
      (cutOutside ⟨[], []⟩ '>' n t).map fun (before, after) => (os ++ before, after) := by
  induction os with
  | nil => simp
  | cons o os ih =>
    obtain ⟨ho, hos⟩ := List.forall_mem_cons.1 hos
    have hne : ¬(n.isOutside && o == '>') = true := by simp [ne_of_high (q := '>') (by decide) ho]
    rw [List.cons_append, cutOutside, if_neg hne, step_of_high hn ho, ih hos]
    simp [Function.comp_def]

theorem cutOutside_octets {n : Nesting} (hn : ∀ q ∈ n.quote, q.toNat < 128) (s : List Char) :
    cutOutside ⟨[], []⟩ '>' n (octets s) =
      (cutOutside ⟨[], []⟩ '>' n s).map fun (before, after) => (octets before, octets after) := by
  induction s generalizing n with
  | nil => rfl
  | cons c s ih =>
    rw [octets_cons]
    rcases octets_singleton c with ⟨hc, hone⟩ | ⟨hc, -, hhigh⟩
    · rw [hone, List.singleton_append, cutOutside, cutOutside]
      split
      · rfl
      · rw [ih (quote_step hn c)]
        cases cutOutside ⟨[], []⟩ '>' (n.step ⟨[], []⟩ c) s with
        | none => rfl
        | some r => simp [octets_cons c r.1, hone]
    · have hne : ¬(n.isOutside && c == '>') = true := by simp [ne_of_high (q := '>') (by decide) hc]
      rw [cutOutside_pass hn hhigh, ih hn, cutOutside, if_neg hne, step_of_high hn hc]
      cases cutOutside ⟨[], []⟩ '>' n s with
      | none => rfl
      | some r => simp [octets_cons c r.1]

theorem find?_ofList (pat s : List Char) :
    find? pat (String.ofList s) = (cut pat s).map fun (before, _) => byteLength before := by
  rw [find?, String.toList_ofList]

/-! ## Offsets -/

/-- The offset `n` stands between two characters, and `s` is what follows it. -/
def At (html : String) (n : Nat) (s : List Char) : Prop := ∃ pre, html.toList = pre ++ s ∧ n = byteLength pre

namespace At

variable {html : String} {n : Nat} {s t : List Char}

theorem zero (html : String) : At html 0 html.toList := ⟨[], rfl, rfl⟩

/-- Going on by a whole text. -/
theorem append (h : At html n (s ++ t)) : At html (n + byteLength s) t := by
  obtain ⟨pre, hpre, rfl⟩ := h
  exact ⟨pre ++ s, by rw [hpre, List.append_assoc], (byteLength_append pre s).symm⟩

theorem size_eq (h : At html n s) : html.utf8ByteSize = n + byteLength s := by
  obtain ⟨pre, hpre, rfl⟩ := h
  rw [utf8ByteSize_eq, hpre, byteLength_append]

theorem drop_octets (h : At html n s) : (octets html.toList).drop n = octets s := by
  obtain ⟨pre, hpre, rfl⟩ := h
  rw [hpre, octets_append, ← length_octets, List.drop_left]

theorem octet?_eq (h : At html n s) (i : Nat) : octet? html (n + i) = (octets s)[i]? := by
  rw [← h.drop_octets, List.getElem?_drop, octet?, ← Array.getElem?_toList, toByteArray_eq, octets, List.getElem?_map]

theorem octet?_iff (h : At html n s) {q : Char} (hq : q.toNat < 128) :
    octet? html n = some q ↔ s.head? = some q := by
  rw [← head?_octets hq, List.head?_eq_getElem?]
  exact iff_of_eq (congrArg (· = some q) (h.octet?_eq 0))

/-- There is a byte before the end, and it is that of an ASCII character exactly if this character stands there. -/
theorem exists_octet (h : At html n s) (hne : s ≠ []) :
    ∃ o, octet? html n = some o ∧ ∀ q : Char, q.toNat < 128 → (o = q ↔ s.head? = some q) := by
  have hpos : 0 < (octets s).length := length_octets s ▸ byteLength_pos hne
  obtain ⟨o, os, ho⟩ := List.exists_cons_of_ne_nil (List.length_pos_iff.1 hpos)
  have hfirst : octet? html n = some o := by
    have hzero := h.octet?_eq 0
    rwa [ho] at hzero
  refine ⟨o, hfirst, fun q hq => ?_⟩
  rw [← h.octet?_iff hq, hfirst, Option.some.injEq]

/-- The last byte of a text is that of an ASCII character exactly if the text ends with this character. -/
theorem last_octet {init : List Char} {c : Char} (h : At html n (init ++ [c] ++ t)) :
    ∃ o, octet? html (n + byteLength (init ++ [c]) - 1) = some o ∧ ∀ q : Char, q.toNat < 128 → (o = q ↔ c = q) := by
  have hne : octets [c] ≠ [] := by rcases octets_singleton c with ⟨-, hone⟩ | ⟨-, hne, -⟩ <;> simp [*]
  obtain ⟨os, o, ho⟩ := (List.eq_nil_or_concat (octets [c])).resolve_left hne
  rw [List.concat_eq_append] at ho
  refine ⟨o, ?_, fun q hq => ?_⟩
  · have hlength : byteLength (init ++ [c]) = byteLength init + os.length + 1 := by
      rw [byteLength_append, ← length_octets [c], ho, List.length_append, Nat.add_assoc]
      rfl
    have hplace : n + byteLength (init ++ [c]) - 1 = n + byteLength init + os.length := by omega
    have hat : At html (n + byteLength init) ([c] ++ t) := At.append (by rwa [List.append_assoc] at h)
    rw [hplace, hat.octet?_eq, octets_append, ho]
    simp
  · rcases octets_singleton c with ⟨-, hone⟩ | ⟨hc, -, hhigh⟩
    · obtain ⟨-, rfl⟩ : os = [] ∧ o = c := by
        rw [hone] at ho
        simpa [List.cons_eq_append_iff] using ho
      rfl
    · exact iff_of_false (ne_of_high hq (hhigh o (by simp [ho]))) (ne_of_high hq hc)

/-- Between two such offsets there is a text. -/
theorem slice?_eq (h : At html n (s ++ t)) : slice? html n (n + byteLength s) = some (String.ofList s) := by
  obtain ⟨pre, hpre, rfl⟩ := h
  have hsplit : html.toList = (pre ++ s) ++ t := by rw [hpre, List.append_assoc]
  have hvalid : String.Pos.Raw.IsValid html ⟨byteLength pre⟩ ∧
      String.Pos.Raw.IsValid html ⟨byteLength pre + byteLength s⟩ ∧ byteLength pre ≤ byteLength pre + byteLength s :=
    ⟨isValid_of_append hpre, byteLength_append pre s ▸ isValid_of_append hsplit, Nat.le_add_right _ _⟩
  have hbytes : (bytes html.toList).extract (byteLength pre) (byteLength pre + byteLength s) = bytes s := by
    rw [← length_bytes, ← length_bytes]
    exact Text.extract_middle (by rw [hpre, bytes_append, bytes_append])
  rw [slice?, dif_pos hvalid, Option.some.injEq, ← String.toByteArray_inj, String.toByteArray_extract]
  refine ByteArray.ext (Array.toList_inj.1 ?_)
  rw [ByteArray.data_extract, Array.toList_extract, toByteArray_eq, toByteArray_eq, String.toList_ofList, hbytes]

-- The letter has two bytes: nothing can be cut out from between them, nor past the end.
example : slice? "é<" 0 2 = some "é" ∧ slice? "é<" 1 2 = none ∧ slice? "é<" 2 4 = none := by decide

theorem sliceFrom?_eq (h : At html n s) : sliceFrom? html n = some (String.ofList s) := by
  rw [sliceFrom?, h.size_eq]
  exact slice?_eq (t := []) (by rwa [List.append_nil])

/-- A loop over bytes goes on as long as `takeWhile` does. -/
theorem advance?_of_octets {p : Char → Bool} {os : List Char} (h : ∀ i < os.length, octet? html (n + i) = os[i]?) :
    Scanner.advance? html p (n + os.length) n = some (n + (os.takeWhile p).length) := by
  induction os generalizing n with
  | nil =>
    rw [Scanner.advance?, if_neg (by simp)]
    rfl
  | cons o os ih =>
    have hfirst : octet? html n = some o := h 0 (by simp)
    have hrest : ∀ i < os.length, octet? html (n + 1 + i) = os[i]? := by
      intro i hi
      have hnext := h (i + 1) (by simpa using hi)
      rw [Nat.add_assoc, Nat.add_comm 1 i]
      simpa using hnext
    rw [Scanner.advance?, if_pos (by simp), hfirst]
    dsimp only
    rw [List.takeWhile_cons]
    split
    · have hlimit : n + (o :: os).length = n + 1 + os.length := by
        rw [List.length_cons]
        omega
      rw [hlimit, ih hrest, List.length_cons]
      congr 1
      omega
    · rfl

/-- Going on by bytes ends between two characters. -/
theorem advance?_eq {p : Char → Bool} (hp : Uniform p) (h : At html n (s ++ t)) :
    Scanner.advance? html p (n + byteLength s) n = some (n + byteLength (s.takeWhile p)) := by
  rw [← length_octets s, ← length_octets (s.takeWhile p), ← takeWhile_octets hp]
  refine advance?_of_octets fun i hi => ?_
  rw [h.octet?_eq, octets_append, List.getElem?_append_left hi]

end At

end EmailMarkup.Html
