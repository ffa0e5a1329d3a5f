import Mathlib.Data.List.TakeWhile
import TypedHole.Proofs.Scanning
import TypedHole.Proofs.TypeGrammar

/-! Types as texts.
The text of a type is scanned piece by piece, whatever follows it, and its tokens make the type again.
Main statement: a type whose names are identifiers is read back from its text, and so is every type that has been
read (`type_text_read`). -/
namespace TypedHole

namespace Alphabet

namespace CodeRange

/-- Whether one of two ranges ends before the other begins, or both step past each other. -/
def apart (a b : CodeRange) : Bool :=
  if a.last < b.first then true
  else if b.last < a.first then true
  else a.step == b.step && a.first % a.step != b.first % b.step

theorem mod_of_holds {r : CodeRange} {c : Char} (h : r.holds c = true) : c.toNat % r.step = r.first % r.step := by
  obtain ⟨hfirst,-,hstep⟩ := (r.holds_eq_true c).1 h
  obtain ⟨k,hk⟩ := Nat.dvd_of_mod_eq_zero hstep
  rw [← Nat.sub_add_cancel hfirst,hk,Nat.mul_add_mod]

theorem not_holds_of_apart {a b : CodeRange} (h : a.apart b = true) {c : Char} (hb : b.holds c = true) :
    a.holds c = false := by
  refine Bool.eq_false_iff.2 fun ha => ?_
  have hamod := mod_of_holds ha
  have hbmod := mod_of_holds hb
  rw [holds_eq_true] at ha hb
  rw [apart] at h
  split at h
  next => omega
  split at h
  next => omega
  next =>
    obtain ⟨hstep,hne⟩ := Bool.and_eq_true_iff.1 h
    exact bne_iff_ne.1 hne (by rw [← hamod,← hbmod,beq_iff_eq.1 hstep])

theorem any_holds_eq_false {as bs : List CodeRange} (h : (as.all fun a => bs.all a.apart) = true) {c : Char}
    (hc : bs.any (·.holds c) = true) : as.any (·.holds c) = false := by
  obtain ⟨b,hb,hholds⟩ := List.any_eq_true.1 hc
  refine List.any_eq_false.2 fun a ha => Bool.eq_false_iff.1 (not_holds_of_apart ?_ hholds)
  exact List.all_eq_true.1 (List.all_eq_true.1 h a ha) b hb

end CodeRange

theorem isBlank_of_isCasedLetter {c : Char} : isCasedLetter c = true → isBlank c = false :=
  CodeRange.any_holds_eq_false (by decide +kernel)

theorem isSign_of_isCasedLetter {c : Char} : isCasedLetter c = true → isSign c = false :=
  CodeRange.any_holds_eq_false (by decide +kernel)

end Alphabet

namespace Lexeme

/-! Identifiers, and where they end. -/

/-- A text that is one word, and neither a keyword nor the sign of a lambda. -/
def IsIdentifier (x : String) : Prop := first? x.toList = some (.word,x.toList.length) ∧ kind .word x = .ident

instance (x : String) : Decidable (IsIdentifier x) := inferInstanceAs (Decidable (_ ∧ _))

def EndsWord (cs : List Char) : Prop := ∀ c ∈ cs.head?, continuesWord c = false

theorem endsWord_cons {c : Char} {cs : List Char} (h : continuesWord c = false) : EndsWord (c :: cs) := by
  rintro d ⟨⟩
  exact h

theorem takeWhile_append_of_all {α : Type} {p : α → Bool} {as bs : List α} (has : ∀ a ∈ as, p a = true)
    (hbs : ∀ b ∈ bs.head?, p b = false) : (as ++ bs).takeWhile p = as := by
  rw [List.takeWhile_append_of_pos has]
  cases bs with
  | nil => simp
  | cons b bs => simp [hbs b rfl]

theorem first?_word_iff {cs : List Char} {n : Nat} : first? cs = some (.word,n) ↔
    ∃ c ds, cs = c :: ds ∧ startsWord c = true ∧ n = 1 + (ds.takeWhile continuesWord).length := by
  constructor
  · intro h
    cases cs with
    | nil => cases h
    | cons c ds =>
      rw [first?] at h
      split at h
      next hstart =>
        cases h
        exact ⟨c,ds,rfl,hstart,rfl⟩
      next =>
        repeat' split at h
        all_goals cases h
  · rintro ⟨c,ds,rfl,hstart,rfl⟩
    rw [first?,if_pos hstart]

theorem IsIdentifier.chars {x : String} (h : IsIdentifier x) :
    ∃ c ds, x.toList = c :: ds ∧ startsWord c = true ∧ ∀ d ∈ ds, continuesWord d = true := by
  obtain ⟨c,ds,hx,hstart,hlength⟩ := first?_word_iff.1 h.1
  refine ⟨c,ds,hx,hstart,?_⟩
  have hall : ds.takeWhile continuesWord = ds := by
    refine (List.takeWhile_prefix _).eq_of_length ?_
    rw [hx,List.length_cons] at hlength
    omega
  exact List.takeWhile_eq_self_iff.1 hall

theorem IsIdentifier.newline {x : String} (h : IsIdentifier x) : '\n' ∉ x.toList := by
  obtain ⟨c,ds,hx,hstart,hds⟩ := h.chars
  rw [hx,List.mem_cons]
  rintro (rfl | hmem)
  · exact absurd hstart (by decide +kernel)
  · exact absurd (hds _ hmem) (by decide +kernel)

theorem first?_identifier {x : String} (h : IsIdentifier x) {post : List Char} (hpost : EndsWord post) :
    first? (x.toList ++ post) = some (.word,x.toList.length) := by
  obtain ⟨c,ds,hx,hstart,hds⟩ := h.chars
  refine first?_word_iff.2 ⟨c,ds ++ post,by rw [hx,List.cons_append],hstart,?_⟩
  rw [takeWhile_append_of_all hds hpost,hx,List.length_cons]
  omega

theorem first?_take {cs : List Char} {n : Nat} (h : first? cs = some (.word,n)) :
    first? (cs.take n) = some (.word,(cs.take n).length) := by
  obtain ⟨c,ds,rfl,hstart,rfl⟩ := first?_word_iff.1 h
  rw [take_run]
  refine first?_word_iff.2 ⟨c,_,rfl,hstart,?_⟩
  rw [List.takeWhile_idem,List.length_cons,Nat.add_comm]

theorem startsWord_plain {c : Char} (h : startsWord c = true) : Alphabet.isBlank c = false ∧ c ≠ '-' := by
  rcases Bool.or_eq_true_iff.1 h with h | h
  · refine ⟨Alphabet.isBlank_of_isCasedLetter h,?_⟩
    rintro rfl
    exact absurd h (by decide +kernel)
  · cases beq_iff_eq.1 h
    exact ⟨by decide,by decide⟩

theorem gap_identifier {x : String} (h : IsIdentifier x) (post : List Char) : gap (x.toList ++ post) = 0 := by
  obtain ⟨c,ds,hx,hstart,-⟩ := h.chars
  obtain ⟨hblank,hdash⟩ := startsWord_plain hstart
  simp [hx,gap,hblank,hdash]

theorem gap_blank (cs : List Char) :
    gap (' ' :: cs) = 1 ∨ 0 < gap cs ∧ gap (' ' :: cs) = 1 + gap cs := by
  have hblank : Alphabet.isBlank ' ' = true := by decide
  cases cs with
  | nil => exact .inl (by simp [gap,hblank])
  | cons c cs =>
    cases hc : Alphabet.isBlank c with
    | false => exact .inl (by simp [gap,hblank,hc])
    | true => exact .inr (by simp [gap,hblank,hc]; omega)

theorem gap_arrow (cs : List Char) : gap (['-','>'] ++ cs) = 0 := by
  have hdash : Alphabet.isBlank '-' = false := by decide
  simp [gap,hdash]

theorem not_startsWord_of_joinsOperator {c : Char} (h : joinsOperator c = true) : startsWord c = false := by
  obtain ⟨hsign,hother⟩ := Bool.and_eq_true_iff.1 h
  refine Bool.or_eq_false_iff.2 ⟨?_,?_⟩
  · refine Bool.eq_false_iff.2 fun hletter => ?_
    rw [Alphabet.isSign_of_isCasedLetter hletter] at hsign
    cases hsign
  · rw [beq_eq_false_iff_ne]
    rintro rfl
    cases hother

theorem first?_operator {c : Char} {cs post : List Char} (h : (c :: cs).all joinsOperator = true)
    (hpost : ∀ d ∈ post.head?, joinsOperator d = false) : first? (c :: cs ++ post) = some (.sign,cs.length + 1) := by
  obtain ⟨hc,hcs⟩ := List.forall_mem_cons.1 (List.all_eq_true.1 h)
  have halone : standsAlone c = false := by
    refine Bool.eq_false_iff.2 fun halone => ?_
    rw [not_joinsOperator_of_standsAlone halone] at hc
    cases hc
  simp [first?,not_startsWord_of_joinsOperator hc,halone,hc,takeWhile_append_of_all hcs hpost,Nat.add_comm]

end Lexeme

/-! Scanning a text piece by piece. -/

namespace Cursor

variable {p : Cursor}

theorem skip_skip (p : Cursor) (m n : Nat) : (p.skip m).skip n = p.skip (m + n) := by
  have htake : p.rest.take (m + n) = p.rest.take m ++ (p.rest.drop m).take n := List.take_add
  have hlast : (p.skip (m + n)).atLineStart = ((p.skip m).skip n).atLineStart := by
    simp only [skip,htake,List.getLast?_append]
    cases ((p.rest.drop m).take n).getLast? <;> rfl
  simp only [skip,Cursor.mk.injEq] at hlast ⊢
  refine ⟨?_,hlast.symm,List.drop_drop ..⟩
  rw [htake,byteSize_append,Nat.add_assoc]

theorem skipGaps_of_pos (h : 0 < Lexeme.gap p.rest) : p.skipGaps = (p.skip (Lexeme.gap p.rest)).skipGaps := by
  rw [skipGaps,if_neg (Nat.ne_of_gt h)]

theorem next_blank {cs : List Char} (hrest : p.rest = ' ' :: cs) : p.next = (p.skip 1).next := by
  have hskip : (p.skip 1).rest = cs := by simp [hrest]
  rw [next,next]
  -- The blank is the whole gap, or the gap goes on behind it.
  rcases Lexeme.gap_blank cs with hgap | ⟨hpos,hgap⟩
  · rw [skipGaps_of_pos (by rw [hrest]; omega),hrest,hgap]
  · rw [skipGaps_of_pos (by rw [hrest]; omega),hrest,hgap,(p.skip 1).skipGaps_of_pos (by rw [hskip]; exact hpos),
      hskip,skip_skip]

theorem next_piece {k : Lexeme.Class} {x post : List Char} (hrest : p.rest = x ++ post)
    (hgap : Lexeme.gap p.rest = 0) (hfirst : Lexeme.first? (x ++ post) = some (k,x.length)) :
    p.next = .token ⟨Lexeme.kind k (String.ofList x),String.ofList x,p.offset,(p.skip x.length).offset,p.atLineStart⟩
      (p.skip x.length) := by
  have htake : p.rest.take x.length = x := by rw [hrest,List.take_left]
  rw [next,skipGaps_of_gap hgap,scan,hrest,hfirst]
  simp only [← hrest,htake]

end Cursor

namespace Source

variable {s : Source} {p q r : Cursor} {ts us : List Token}

theorem yields_blank {cs : List Char} (hrest : p.rest = ' ' :: cs) :
    s.Yields p [] (p.skip 1) ∧ (p.skip 1).rest = cs ∧ (p.skip 1).atLineStart = false :=
  ⟨yields_of_next_eq (Cursor.next_blank hrest),by simp [hrest],by simp [Cursor.skip,hrest]⟩

theorem tokensFrom_nil (hrest : p.rest = []) : s.tokensFrom p = ([],.complete) := by
  have hgap : Lexeme.gap p.rest = 0 := by
    rw [hrest]
    rfl
  rw [tokensFrom_eq,Cursor.next,Cursor.skipGaps_of_gap hgap,Cursor.scan,hrest]
  rfl

theorem tokensFrom_newline (hrest : p.rest = ['\n']) : s.tokensFrom p = ([],.complete) := by
  have hgap : Lexeme.gap p.rest = 1 := by
    rw [hrest]
    rfl
  have hnext : p.next = (p.skip 1).next := by
    rw [Cursor.next,Cursor.skipGaps_of_pos (by omega),hgap,Cursor.next]
  have hyields : s.Yields p [] (p.skip 1) := yields_of_next_eq hnext
  rw [hyields,tokensFrom_nil (by simp [hrest])]
  rfl

/-- A piece of the text that is a token, whatever follows. -/
theorem yields_piece {k : Lexeme.Class} {x post : List Char} (hrest : p.rest = x ++ post)
    (hgap : Lexeme.gap p.rest = 0) (hfirst : Lexeme.first? (x ++ post) = some (k,x.length)) (hline : '\n' ∉ x) :
    ∃ t q, s.Yields p [t] q ∧ t.kind = Lexeme.kind k (String.ofList x) ∧ t.text = String.ofList x ∧
      t.atLineStart = p.atLineStart ∧ q.rest = post ∧ q.atLineStart = false := by
  refine ⟨_,_,yields_of_next_token (Cursor.next_piece hrest hgap hfirst),rfl,rfl,rfl,by simp [hrest],?_⟩
  have hne : x ≠ [] := by
    rintro rfl
    exact Nat.lt_irrefl _ (Lexeme.pos_of_first? hfirst)
  simp only [Cursor.skip,hrest,List.take_left,List.getLast?_eq_some_getLast hne,beq_eq_false_iff_ne]
  exact fun h => hline (h ▸ List.getLast_mem hne)

end Source

/-! Texts that are read as types. -/

namespace Ty

/-- A text that is scanned as a type at a place, whatever follows that ends a word. -/
def Legible (t : Ty) (place : Place) (x : String) : Prop :=
  ∀ (s : Source) (p : Cursor) (post : List Char), p.rest = x.toList ++ post → Lexeme.EndsWord post →
    ∃ ts q, s.Yields p ts q ∧ q.rest = post ∧ q.atLineStart = false ∧ Written place ts t ∧
      ∀ t' ∈ ts.head?, t'.atLineStart = p.atLineStart

namespace Legible

variable {t f a d c : Ty} {x y : String}

theorem name (h : Lexeme.IsIdentifier x) : (Parser.namedType x).Legible .argument x := by
  intro s p post hrest hpost
  obtain ⟨t,q,hyields,hkind,htext,ht,hq,hline⟩ :=
    s.yields_piece hrest (by rw [hrest,Lexeme.gap_identifier h]) (Lexeme.first?_identifier h hpost) h.newline
  rw [String.ofList_toList] at hkind htext
  refine ⟨[t],q,hyields,hq,hline,?_,by simpa using ht⟩
  rw [← htext]
  exact .name (by simp [Token.isIdent,hkind,h.2])

theorem argument (h : t.Legible .argument x) : t.Legible .left x := by
  intro s p post hrest hpost
  obtain ⟨ts,q,hyields,hq,hline,hwritten,hhead⟩ := h s p post hrest hpost
  exact ⟨ts,q,hyields,hq,hline,.argument hwritten,hhead⟩

theorem application (h : t.Legible .left x) : t.Legible .whole x := by
  intro s p post hrest hpost
  obtain ⟨ts,q,hyields,hq,hline,hwritten,hhead⟩ := h s p post hrest hpost
  exact ⟨ts,q,hyields,hq,hline,.application hwritten,hhead⟩

theorem parens (h : t.Legible .whole x) : t.Legible .argument ("(" ++ x ++ ")") := by
  intro s p post hrest hpost
  have hrest' : p.rest = ['('] ++ (x.toList ++ ([')'] ++ post)) := by simp [hrest]
  obtain ⟨o,q,hyields,hkind,htext,ho,hq,-⟩ :=
    s.yields_piece (k := .sign) hrest' (by rw [hrest']; rfl) rfl (by decide)
  obtain ⟨ts,q',hyields',hq',-,hwritten,-⟩ := h s q _ hq (Lexeme.endsWord_cons (by decide +kernel))
  obtain ⟨c,q'',hyields'',hkind',htext',-,hq'',hline⟩ :=
    s.yields_piece (k := .sign) hq' (by rw [hq']; rfl) rfl (by decide)
  refine ⟨_,q'',hyields.trans (hyields'.trans hyields''),hq'',hline,?_,by simpa using ho⟩
  exact .parens (by simp [Token.isSymbol,hkind,htext,Lexeme.kind]) hwritten
    (by simp [Token.isSymbol,hkind',htext',Lexeme.kind])

theorem app (hf : f.Legible .left x) (ha : a.Legible .argument y) : (Ty.app f a).Legible .left (x ++ " " ++ y) := by
  intro s p post hrest hpost
  have hrest' : p.rest = x.toList ++ ' ' :: (y.toList ++ post) := by simp [hrest]
  obtain ⟨ts,q,hyields,hq,-,hfn,hhead⟩ := hf s p _ hrest' (Lexeme.endsWord_cons (by decide +kernel))
  obtain ⟨us,q',hyields',hq',hline,harg,hhead'⟩ := ha s (q.skip 1) post (by simp [hq]) hpost
  obtain ⟨hblank,-,hinside⟩ := s.yields_blank hq
  refine ⟨_,q',hyields.trans (hblank.trans hyields'),hq',hline,.app hfn harg fun t ht => ?_,fun t ht => ?_⟩
  · rw [hhead' t ht,hinside]
  · obtain ⟨t',us',rfl⟩ := List.exists_cons_of_ne_nil hfn.ne_nil
    exact hhead t ht

theorem arrow (hd : d.Legible .left x) (hc : c.Legible .whole y) :
    (Ty.arrow d c).Legible .whole (x ++ " -> " ++ y) := by
  intro s p post hrest hpost
  have hrest' : p.rest = x.toList ++ ' ' :: (['-','>'] ++ ' ' :: (y.toList ++ post)) := by simp [hrest]
  obtain ⟨ts,q,hyields,hq,-,hdom,hhead⟩ := hd s p _ hrest' (Lexeme.endsWord_cons (by decide +kernel))
  obtain ⟨hblank,hskip,hinside⟩ := s.yields_blank hq
  obtain ⟨o,q',hyields',hkind,htext,ho,hq',-⟩ :=
    s.yields_piece (k := .sign) hskip (by rw [hskip,Lexeme.gap_arrow])
      (Lexeme.first?_operator (by decide +kernel) (by rintro _ ⟨⟩; decide +kernel)) (by decide)
  obtain ⟨us,q'',hyields'',hq'',hline,hcod,-⟩ := hc s (q'.skip 1) post (by simp [hq']) hpost
  obtain ⟨hblank',-,-⟩ := s.yields_blank hq'
  refine ⟨_,q'',hyields.trans (hblank.trans (hyields'.trans (hblank'.trans hyields''))),hq'',hline,
    .arrow hdom (by simp [Token.isArrow,Token.isSymbol,hkind,htext,Lexeme.kind]) (by rw [ho,hinside]) hcod,
    fun t ht => ?_⟩
  obtain ⟨t',ts',rfl⟩ := List.exists_cons_of_ne_nil hdom.ne_nil
  exact hhead t ht

end Legible

/-- The constants of a type are identifiers that start with a capital letter, and its variables are identifiers
that do not. -/
def Named : Ty → Prop
  | const c => Lexeme.IsIdentifier c ∧ Name.isCapitalized c = true
  | var x => Lexeme.IsIdentifier x ∧ Name.isCapitalized x = false
  | arrow d c => d.Named ∧ c.Named
  | app f a => f.Named ∧ a.Named

theorem named_namedType {x : String} (h : Lexeme.IsIdentifier x) : (Parser.namedType x).Named := by
  rw [Parser.namedType]
  split
  next hcapital => exact ⟨h,hcapital⟩
  next hcapital => exact ⟨h,Bool.eq_false_iff.2 hcapital⟩

theorem Named.legible {t : Ty} (h : t.Named) (p : Place) : t.Legible p (t.textAt p) := by
  induction t generalizing p with
  | const c =>
    have hname := Legible.name h.1
    rw [Parser.namedType,if_pos h.2] at hname
    cases p with
    | whole => exact hname.argument.application
    | left => exact hname.argument
    | argument => exact hname
  | var x =>
    have hname := Legible.name h.1
    rw [Parser.namedType,if_neg (by simp [h.2])] at hname
    cases p with
    | whole => exact hname.argument.application
    | left => exact hname.argument
    | argument => exact hname
  | arrow d c ihd ihc =>
    have harrow := (ihd h.1 .left).arrow (ihc h.2 .whole)
    cases p with
    | whole => exact harrow
    | left => exact harrow.parens.argument
    | argument => exact harrow.parens
  | app f a ihf iha =>
    have happ := (ihf h.1 .left).app (iha h.2 .argument)
    cases p with
    | whole => exact happ.application
    | left => exact happ
    | argument => exact happ.application.parens

/-- The names in what is written as a type are identifiers where its tokens are. -/
theorem Written.named {p : Place} {ts : List Token} {t : Ty} (h : Written p ts t)
    (hts : ∀ t ∈ ts, t.isIdent = true → Lexeme.IsIdentifier t.text) : t.Named := by
  induction h with
  | name h => exact named_namedType (hts _ (by simp) h)
  | parens ho inner hc ih => exact ih fun t ht => hts t (by simp [ht])
  | argument h ih => exact ih hts
  | app fn arg inside ihf iha =>
    exact ⟨ihf fun t ht => hts t (by simp [ht]),iha fun t ht => hts t (by simp [ht])⟩
  | application h ih => exact ih hts
  | arrow dom ho inside cod ihd ihc =>
    exact ⟨ihd fun t ht => hts t (by simp [ht]),ihc fun t ht => hts t (by simp [ht])⟩

def line (t : Ty) (key : Nat) (name : String) : Source := ⟨key,name,t.text ++ "\n"⟩

end Ty

/-- A type is read back from a text when the parser of types returns it and all of the text has been scanned and
taken. -/
def Source.ReadsAs (s : Source) (t : Ty) : Prop :=
  s.tokens.2 = .complete ∧ ∃ n, Parser.type.runOn s = .ok (t,⟨[],n⟩)

theorem Source.isIdentifier_of_mem_tokensFrom {s : Source} {p : Cursor} {t : Token}
    (ht : t ∈ (s.tokensFrom p).1) (hident : t.isIdent = true) : Lexeme.IsIdentifier t.text := by
  fun_induction s.tokensFrom p with
  | case1 => simp at ht
  | case2 => simp at ht
  | case3 p t' q h ts e he ih =>
    rcases List.mem_cons.1 ht with rfl | ht
    · obtain ⟨k,n,hfirst,-,rfl⟩ := Cursor.next_eq_token h
      have hkind := beq_iff_eq.1 hident
      cases k with
      | word => exact ⟨by simpa using Lexeme.first?_take hfirst,hkind⟩
      | sign => cases hkind
      | numeral => cases hkind
    · rw [he] at ih
      exact ih ht

theorem Ty.Named.readsAs {t : Ty} (h : t.Named) (key : Nat) (name : String) : (t.line key name).ReadsAs t := by
  have hchars : (t.line key name).chars = t.text.toList ++ ['\n'] := by simp [Source.chars,line]
  obtain ⟨ts,q,hyields,hq,-,hwritten,-⟩ := h.legible .whole (t.line key name) (t.line key name).cursor ['\n'] hchars
    (Lexeme.endsWord_cons (by decide +kernel))
  have hdone := (t.line key name).tokensFrom_newline hq
  have hend : (t.line key name).hasEnd = true := Source.hasEnd_of_getLast? (by rw [hchars]; simp; decide)
  rw [Source.Yields,hdone] at hyields
  refine ⟨by rw [Source.tokens,hyields],?_⟩
  rw [Parser.runOn,Source.tokens,hyields]
  have hstops : Parser.StopsAt ⟨t.line key name,.complete⟩ (fun t => Parser.startsTypeAtom t || t.isArrow) [] :=
    ⟨_,by rw [Reading.noToken,hend]; rfl⟩
  exact hwritten.accepted hstops 0

/-- A type whose names are identifiers is read back from its text, and so is every type that is read from any text. -/
theorem type_text_read (key : Nat) (name : String) :
    (∀ t : Ty, t.Named → (t.line key name).ReadsAs t) ∧
    ∀ (s : Source) (t : Ty) (i : Input), Parser.type.runOn s = .ok (t,i) → (t.line key name).ReadsAs t := by
  refine ⟨fun t h => h.readsAs key name,fun s t i h => Ty.Named.readsAs ?_ key name⟩
  obtain ⟨ts,hts,hwritten⟩ := Parser.written_of_type _ _ _ _ h
  refine hwritten.named fun t' ht' hident => s.isIdentifier_of_mem_tokensFrom (p := s.cursor) ?_ hident
  have htokens : s.tokens.1 = ts ++ i.tokens := hts
  rw [← Source.tokens,htokens]
  exact List.mem_append_left _ ht'

def Ty.mapped : Ty := .arrow (.app (.const "List") (.arrow (.var "a") (.var "b"))) (.const "Nat")

def Source.mapped : Source := ⟨0,"t.hole","List(a→b)\n  → Nat\n"⟩

theorem Source.tokens_mapped : Source.mapped.tokens =
    ([⟨.ident,"List",0,4,true⟩,⟨.symbol,"(",4,5,false⟩,⟨.ident,"a",5,6,false⟩,⟨.symbol,"→",6,9,false⟩,
      ⟨.ident,"b",9,10,false⟩,⟨.symbol,")",10,11,false⟩,⟨.symbol,"→",14,17,false⟩,⟨.ident,"Nat",18,21,false⟩],
      .complete) := by
  decide +kernel

theorem type_text_read_mapped : (Ty.mapped.line 0 "t.hole").ReadsAs .mapped ∧
    ∃ i, Parser.type.runOn Source.mapped = .ok (.mapped,i) ∧ (Ty.mapped.line 1 "u.hole").ReadsAs .mapped := by
  have hnamed : Ty.mapped.Named := by
    simp only [Ty.mapped,Ty.Named]
    decide +kernel
  have hread : Parser.type.runOn Source.mapped = .ok (.mapped,⟨[],21⟩) := by
    rw [Parser.runOn,Source.tokens_mapped]
    rfl
  exact ⟨(type_text_read 0 "t.hole").1 .mapped hnamed,_,hread,(type_text_read 1 "u.hole").2 .mapped .mapped _ hread⟩

end TypedHole
