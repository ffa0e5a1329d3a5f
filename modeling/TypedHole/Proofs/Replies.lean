import TypedHole.Proofs.Loading
import TypedHole.Proofs.Totality

/-! What loading answers.
Main statement: a text that is empty or ends in a character of one byte is read to a program or to an error whose
messages can be shown, and each span that is kept from it is a stretch of whole characters
(`Program.load_answers`). -/
namespace TypedHole

/-! The stretches that messages show. -/

def Part.places : Part → List Span
  | .stretch s | .given s => [s]
  | _ => []

def ProgramError.places (e : ProgramError) : List Span := e.part.toList.flatMap Part.places

def ParseError.places (s : Source) : ParseError → List Span
  | .unknownCharacter p => [p]
  | .unexpected _ p => [p]
  | .endOfInput => [s.lastByte]

def LoadError.places (s : Source) : LoadError → List Span
  | .parse e => e.places s
  | .program e => e.places

/-- A stretch of a text that messages can show, and whose line and column can be told. -/
structure Source.Shows (s : Source) (p : Span) : Prop where
  source : p.source = s.key
  excerpt : (s.excerpt? p).isSome = true
  position : (s.position? p.start).isSome = true

namespace Source

variable {s : Source} {start stop : Nat}

theorem shows_of_holds {p : Span} (hp : p.source = s.key) (h : s.holds p = true) : s.Shows p := by
  simp only [holds,Bool.and_eq_true,decide_eq_true_eq] at h
  obtain ⟨⟨⟨hle,hsize⟩,hstart⟩,hstop⟩ := h
  have hmin : min p.start s.size = p.start := by omega
  exact ⟨hp,by simp [excerpt?,holds,hle,hsize,hstart,hstop],by simp [position?,hmin,hstart]⟩

/-- Tokens begin and end between characters, and so does the text. -/
theorem boundary_of_mark {n : Nat} (h : Token.Mark s.tokens.1 n) : n ≤ s.size ∧ isBoundary n s.chars = true := by
  rcases h with rfl | ⟨t,ht,hn⟩
  · exact ⟨Nat.zero_le _,by rw [isBoundary]⟩
  · obtain ⟨pre,post,hstands⟩ := stands_of_mem_tokens ht
    have hlt := hstands.start_lt_stop
    have hle := hstands.stop_le_size
    rcases hn with rfl | rfl
    · exact ⟨by omega,hstands.boundary_start⟩
    · exact ⟨hle,hstands.boundary_stop⟩

theorem holds_of_marks (hstart : Token.Mark s.tokens.1 start) (hstop : Token.Mark s.tokens.1 stop)
    (h : start ≤ stop) : s.holds (s.span start stop) = true :=
  (s.holds_span_iff _ _).2 ⟨h,(boundary_of_mark hstop).1,(boundary_of_mark hstart).2,(boundary_of_mark hstop).2⟩

theorem shows_token {t : Token} (ht : t ∈ s.tokens.1) : s.Shows (s.span t.start t.stop) := by
  obtain ⟨pre,post,hstands⟩ := stands_of_mem_tokens ht
  exact shows_of_holds rfl (holds_of_marks (.inr ⟨t,ht,.inl rfl⟩) (.inr ⟨t,ht,.inr rfl⟩)
    (Nat.le_of_lt hstands.start_lt_stop))

theorem shows_unknown {p : Span} (h : s.tokens.2 = .unknown p) : s.Shows p := by
  obtain ⟨hp,hholds⟩ := holds_of_tokensFrom_unknown (Cursor.behind_start s) h
  exact shows_of_holds hp hholds

end Source

/-! Each error of a program shows parts of its module. -/

/-- Whatever error comes up, it shows such stretches only. -/
def ShowsOnly {α : Type} (P : Span → Prop) (x : Except ProgramError α) : Prop :=
  ∀ e, x = .error e → ∀ s ∈ e.places, P s

namespace ShowsOnly

variable {α β : Type} {P : Span → Prop} {x : Except ProgramError α}

theorem ok {a : α} : ShowsOnly P (.ok a) := nofun

theorem unplaced {m : Misfit} : ShowsOnly P (.error ⟨none,m⟩ : Except ProgramError α) := by
  intro e h
  cases h
  exact nofun

theorem blame {part : Part} (h : ∀ s ∈ part.places, P s) (y : Except Misfit α) :
    ShowsOnly P (TypedHole.blame part y) := by
  intro e he
  cases y with
  | ok => cases he
  | error =>
    cases he
    simpa [ProgramError.places] using h

theorem blameNone (y : Except Misfit α) : ShowsOnly P (TypedHole.blameNone y) := by
  cases y with
  | ok => exact ok
  | error => exact unplaced

theorem bind {f : α → Except ProgramError β} (hx : ShowsOnly P x) (hf : ∀ a, x = .ok a → ShowsOnly P (f a)) :
    ShowsOnly P (x >>= f) := by
  cases hx' : x with
  | ok a => exact hf a hx'
  | error e =>
    intro e' he'
    cases he'
    exact hx e hx'

theorem guarded {c : Prop} [Decidable c] {m : Misfit} {f : Unit → Except ProgramError β} (h : ShowsOnly P (f ())) :
    ShowsOnly P (if c then throw ⟨none,m⟩ >>= f else f ()) := by
  split
  · exact unplaced
  · exact h

theorem forM {f : α → Except ProgramError Unit} {as : List α} (h : ∀ a ∈ as, ShowsOnly P (f a)) :
    ShowsOnly P (as.forM f) := by
  induction as with
  | nil => exact ok
  | cons a as ih =>
    exact (h a List.mem_cons_self).bind fun _ _ => ih fun b hb => h b (List.mem_cons_of_mem a hb)

theorem foldlM {f : β → α → Except ProgramError β} {as : List α} (h : ∀ b, ∀ a ∈ as, ShowsOnly P (f b a)) (b : β) :
    ShowsOnly P (as.foldlM f b) := by
  induction as generalizing b with
  | nil => exact ok
  | cons a as ih =>
    rw [List.foldlM_cons]
    exact (h b a List.mem_cons_self).bind fun c _ => ih (fun b a' ha' => h b a' (List.mem_cons_of_mem a ha')) c

end ShowsOnly

theorem Equation.span_mem_of_mem_pats {e : Equation} {p : Pat} (h : p ∈ e.pats) :
    p.span ∈ (Decl.equation e).spans := by
  have hp : Node.pat p ∈ p.nodes := by
    have hnodes := Node.nodes_eq (.pat p)
    rw [show (Node.pat p).nodes = p.nodes from rfl] at hnodes
    rw [hnodes]
    exact List.mem_cons_self
  refine List.mem_map.2 ⟨.pat p,?_,rfl⟩
  rw [Equation.nodes]
  exact List.mem_cons_of_mem _ (List.mem_append_left _ (List.mem_flatMap.2 ⟨p,h,hp⟩))

theorem Module.span_mem_of_mem_holes {key : Nat} {m : Module} (hm : m.IsWritten key) {h : HoleSite}
    (hh : h ∈ m.holes) : h.span ∈ m.spans := by
  have hspan : h.span ∈ m.nodes.filterMap Node.holeSpan? := hm.map_holes ▸ List.mem_map_of_mem hh
  obtain ⟨n,hn,hs⟩ := List.mem_filterMap.1 hspan
  obtain ⟨x,rfl⟩ := Node.holeSpan?_eq_some hs
  obtain ⟨e,he,hn⟩ := List.mem_flatMap.1 hn
  exact List.mem_flatMap.2 ⟨.equation e,Module.mem_equations.1 he,List.mem_map.2 ⟨_,hn,rfl⟩⟩

namespace Program

theorem showsOnly_checkEquation (types : TypeTable) (e : Equation) (t : Ty) :
    ShowsOnly (· ∈ (Decl.equation e).spans) (checkEquation types e t) := by
  rw [checkEquation]
  refine .guarded (.forM ?_)
  rintro ⟨p,u⟩ hp
  refine .bind (.blame ?_ _) fun _ _ => .ok
  simpa [Part.places] using Equation.span_mem_of_mem_pats (List.of_mem_zip hp).1

theorem showsOnly_add (p : Program) (d : Decl) : ShowsOnly (· ∈ d.spans) (p.add d) := by
  cases d with
  | primitive => exact .ok
  | datatype d =>
    rw [add]
    exact .bind (.forM fun c _ => .forM fun t _ => .blame (List.forall_mem_nil _) _) fun _ _ => .ok
  | cls d =>
    rw [add]
    refine .guarded (.bind (.forM ?_) fun _ _ => .ok)
    rintro ⟨m,t⟩ -
    exact .blame (List.forall_mem_nil _) _
  | inst d =>
    rw [add]
    exact .guarded (.bind (.blameNone _) fun _ _ => .ok)
  | extension x s =>
    rw [add]
    split
    · exact .ok
    · intro e he
      cases he
      simp [ProgramError.places,Part.places,Decl.spans]
  | signature x t =>
    rw [add]
    exact .guarded (.bind (.blame (List.forall_mem_nil _) _) fun _ _ => .ok)
  | equation e =>
    rw [add]
    split
    · exact .bind (showsOnly_checkEquation _ e _) fun _ _ => .ok
    · exact .bind .ok fun _ _ => .ok

theorem showsOnly_ofModule {key : Nat} {m : Module} (hm : m.IsWritten key) :
    ShowsOnly (· ∈ m.spans) (ofModule m) := by
  refine .bind (.blameNone _) fun types _ => .bind (.foldlM (fun p d hd e he s hs => ?_) _) fun p _ =>
    .bind (.forM fun h hh => ?_) fun _ _ => .ok
  · exact List.mem_flatMap.2 ⟨d,hd,showsOnly_add p d e he s hs⟩
  · rw [checkGiven]
    split
    · exact .blame (by simpa [Part.places] using Module.span_mem_of_mem_holes hm hh) _
    · exact .ok

end Program

/-! The spans that a module keeps. -/

namespace Parser

variable {r : Reading} {i i' : Input}

/-- If a parser returns an extension, its span has begun before. -/
def SpansExtension (start : Nat) (p : Parser Decl) : Prop :=
  ∀ r i i' x s, i.InOrder → start < i.lastStop → p r i = .ok (.extension x s,i') →
    s.source = r.source.key ∧ s.start < s.stop

theorem SpansExtension.of_reads {start : Nat} {p : Parser Decl} (h : p.Reads fun d => ∀ x s, d ≠ .extension x s) :
    p.SpansExtension start := fun r i i' x s _ _ he => absurd rfl ((h r i _ i' he).2 x s)

theorem spans_of_extension {x : Name} {s : Span} (ho : i.InOrder) (h : declaration r i = .ok (.extension x s,i')) :
    s.source = r.source.key ∧ s.start < s.stop := by
  obtain ⟨start,i₁,hstart,h⟩ := bind_eq_ok h
  obtain ⟨rfl,rfl⟩ := offset_eq_ok hstart
  obtain ⟨t,i₂,ht,h⟩ := bind_eq_ok h
  obtain ⟨hstart,-,hlt,hstop,ho'⟩ := take_eq_ok ho ht
  have hspans (p : Parser Decl) (hp : p.SpansExtension i.offset) (h : p r i₂ = .ok (.extension x s,i')) :
      s.source = r.source.key ∧ s.start < s.stop := hp _ _ _ _ _ ho' (by omega) h
  refine hspans _ ?_ h
  split
  · exact .of_reads (Reads.datatype.bind fun _ _ => .pure nofun)
  · exact .of_reads (Reads.capitalizedName.bind fun _ _ => .pure nofun)
  · exact .of_reads (Reads.classDecl.bind fun _ _ => .pure nofun)
  · exact .of_reads (Reads.instanceDecl.bind fun _ _ => .pure nofun)
  · intro r i i' x s ho hs h
    obtain ⟨name,i₁,hname,h⟩ := bind_eq_ok h
    obtain ⟨span,i₂,hspan,h⟩ := bind_eq_ok h
    cases hspan
    cases h
    obtain ⟨-,hle⟩ := (Reads.identifier _ _ _ _ hname).1 ho
    obtain ⟨hwithin,-,-⟩ := within_spanSince r (Nat.lt_of_lt_of_le hs hle)
    exact ⟨hwithin.source,hwithin.nonempty⟩
  · exact .of_reads ((Reads.symbol? ":").bind fun _ _ => .ite (fun _ => Reads.type.bind fun _ _ => .pure nofun)
      fun _ => (Reads.measured (Reads.itemsUntil "=" Reads.pattern)).bind fun _ _ => Reads.expression.bind fun _ _ =>
        (Reads.spanFrom _).bind fun _ _ => .pure nofun)
  · exact .of_reads .refuse

theorem mem_of_declarations {n : Nat} {ds : List Decl} (ho : i.InOrder) (h : declarations n r i = .ok (ds,i')) :
    ∀ d ∈ ds, ∃ j j', j.InOrder ∧ declaration r j = .ok (d,j') := by
  induction n generalizing i ds with
  | zero => cases h
  | succ n ih =>
    obtain ⟨b,i₁,hb,h⟩ := bind_eq_ok h
    cases hb
    rcases ite_eq_ok h with ⟨-,h⟩ | ⟨-,h⟩
    · cases h
      exact nofun
    · obtain ⟨d,i₂,hd,h⟩ := bind_eq_ok h
      obtain ⟨ds,i₃,hds,h⟩ := bind_eq_ok h
      cases h
      exact List.forall_mem_cons.2 ⟨⟨_,_,ho,hd⟩,ih ((Reads.declaration _ _ _ _ hd).1 ho).1 hds⟩

theorem nonempty_of_mem_spans {s : Source} {m : Module} (h : wholeModule.runOn s = .ok (m,i)) :
    ∀ p ∈ m.spans, p.source = s.key ∧ p.start < p.stop := by
  have hm := isWritten_of_runOn h
  obtain ⟨ds,i',hds,h⟩ := bind_eq_ok h
  cases h
  intro p hp
  obtain ⟨d,hd,hp⟩ := List.mem_flatMap.1 hp
  obtain ⟨j,j',ho,hread⟩ := mem_of_declarations (i := ⟨s.tokens.1,0⟩) (s.inOrder_tokensFrom s.cursor) hds d hd
  cases d with
  | extension x q =>
    rw [List.mem_singleton.1 hp]
    exact spans_of_extension ho hread
  | equation e =>
    obtain ⟨n,hn,rfl⟩ := List.mem_map.1 hp
    have hnested := Node.forall_nodes (fun _ => Node.Nested.children) (.equation e)
      (hm.placed e (Module.mem_equations.2 hd)) n hn
    exact ⟨hnested.source,hnested.nonempty⟩
  | _ => cases hp

/-- A whole text is read, with spans that begin and end with its tokens, or parsing stops for a reason. -/
theorem runOn_wholeModule (s : Source) :
    (∃ m i, wholeModule.runOn s = .ok (m,i) ∧ ∀ p ∈ m.spans, p.Marked s.tokens.1) ∨
      ∃ e, wholeModule.runOn s = .error e ∧ e.Arises ⟨s,s.tokens.2⟩ s.tokens.1 := by
  have hremains : Input.Remains s.tokens.1 ⟨s.tokens.1,0⟩ := ⟨List.suffix_refl _,.inl rfl⟩
  rcases Settles.wholeModule ⟨s,s.tokens.2⟩ _ hremains (Nat.lt_succ_self _) with ⟨m,i,hm,-,-,hmarked⟩ | hstop
  · exact .inl ⟨m,i,hm,hmarked⟩
  · exact .inr hstop

theorem holds_of_mem_spans {s : Source} {m : Module} (h : wholeModule.runOn s = .ok (m,i)) :
    ∀ p ∈ m.spans, p.start < p.stop ∧ p.source = s.key ∧ s.holds p = true := by
  intro p hp
  obtain ⟨hsource,hlt⟩ := nonempty_of_mem_spans h p hp
  rcases runOn_wholeModule s with ⟨m',i',hm,hmarked⟩ | ⟨e,he,-⟩
  · rw [h] at hm
    cases hm
    obtain ⟨hstart,hstop⟩ := hmarked p hp
    exact ⟨hlt,hsource,Source.holds_of_marks hstart hstop (Nat.le_of_lt hlt)⟩
  · rw [h] at he
    cases he

theorem places_of_runOn_error {s : Source} (hend : s.hasEnd = true) {e : Stop}
    (he : e.Arises ⟨s,s.tokens.2⟩ s.tokens.1) : ∃ e', e = .error e' ∧ ∀ p ∈ e'.places s, s.Shows p := by
  cases he with
  | refused w ht => exact ⟨_,rfl,List.forall_mem_singleton.2 (Source.shows_token ht)⟩
  | noToken =>
    rw [Reading.noToken]
    split
    next p hp => exact ⟨_,rfl,List.forall_mem_singleton.2 (Source.shows_unknown hp)⟩
    next =>
      rw [if_pos hend]
      exact ⟨_,rfl,List.forall_mem_singleton.2 (Source.shows_of_holds rfl hend)⟩

/-! Progress. -/

variable {α : Type}

def Progresses (p : Parser α) : Prop :=
  ∀ r i a i', p r i = .ok (a,i') → i'.tokens.length < i.tokens.length

theorem Settles.progresses {p : Parser α} {Q : List Token → α → Prop}
    (h : ∀ all n, p.Settles all n 1 (Q all)) : p.Progresses := by
  intro r i a i' ha
  obtain ⟨ts,hts,htokens⟩ := Settles.takes h ha
  have hpos := List.length_pos_iff.2 hts
  rw [htokens,List.length_append]
  omega

/-- Each round of each loop takes a token. -/
structure RoundsProgress : Prop where
  declaration : declaration.Progresses
  constructor : constructor.Progresses
  method : method.Progresses
  name : identifier.Progresses
  fieldType : (typeAtom type).Progresses
  pattern : pattern.Progresses
  argument : (atom expression).Progresses
  operator : take.Progresses

theorem roundsProgress : RoundsProgress where
  declaration := Settles.progresses fun _ _ => Settles.declaration
  constructor := Settles.progresses fun _ _ => Settles.constructor
  method := Settles.progresses fun _ _ => Settles.method
  name := Settles.progresses fun _ _ => Settles.identifier
  fieldType := Settles.progresses fun _ _ => Settles.fieldType
  pattern := Settles.progresses fun _ _ => Settles.pattern
  argument := Settles.progresses fun _ n => (Settles.atom Settles.expression).fewer (Nat.le_succ n)
  operator := Settles.progresses fun _ _ => Settles.take

theorem take_of_peek? {t : Token} (h : peek? r i = .ok (some t,i')) : take r i' = .ok (t,⟨i'.tokens.tail,t.stop⟩) := by
  obtain ⟨ts,n⟩ := i
  cases ts with
  | nil =>
    simp only [peek?] at h
    split at h <;> cases h
    simp_all
  | cons t ts =>
    cases h
    rfl

end Parser

namespace Program

/-- A text that is empty or ends in a character of one byte is read to a program or to an error, and whatever is shown
of it on the way is there: the stretches in messages, the tokens, the place where scanning breaks off and the end of
the text. No loop goes on without taking a token, a token that has been looked at can be taken, and the spans that
are kept are stretches of whole characters that are not empty. -/
theorem load_answers {s : Source} (h : ∀ c ∈ s.chars.getLast?, c.utf8Size = 1) :
    ((∃ p, load s = .ok p) ∨ ∃ e, load s = .error e ∧ ∀ p ∈ e.places s, s.Shows p) ∧
      (∀ t ∈ s.tokens.1, s.Shows (s.span t.start t.stop) ∧ ∃ pre post, t.Stands s pre post) ∧
      (∀ p, s.tokens.2 = .unknown p → s.Shows p) ∧ s.Shows s.lastByte ∧
      Parser.RoundsProgress ∧
      (∀ r i i' t, Parser.peek? r i = .ok (some t,i') → Parser.take r i' = .ok (t,⟨i'.tokens.tail,t.stop⟩)) ∧
      ∀ m i, Parser.wholeModule.runOn s = .ok (m,i) → ∀ p ∈ m.spans, s.Shows p ∧ p.start < p.stop ∧
        p.stop ≤ s.size ∧ isBoundary p.start s.chars = true ∧ isBoundary p.stop s.chars = true := by
  have hend := Source.hasEnd_of_getLast? h
  have hspans {m : Module} {i : Input} (hm : Parser.wholeModule.runOn s = .ok (m,i)) {p : Span} (hp : p ∈ m.spans) :
      s.Shows p := by
    obtain ⟨-,hsource,hholds⟩ := Parser.holds_of_mem_spans hm p hp
    exact Source.shows_of_holds hsource hholds
  refine ⟨?reply,fun t ht => ⟨Source.shows_token ht,Source.stands_of_mem_tokens ht⟩,fun _ => Source.shows_unknown,
    Source.shows_of_holds rfl hend,Parser.roundsProgress,fun _ _ _ _ => Parser.take_of_peek?,
    fun m i hm p hp => ⟨hspans hm hp,?kept⟩⟩
  case reply =>
    rw [load]
    rcases Parser.runOn_wholeModule s with ⟨m,i,hm,-⟩ | ⟨e,he,harises⟩
    · rw [hm]
      cases hp : ofModule m with
      | ok p => exact .inl ⟨p,by simp [hp]⟩
      | error e =>
        have hplaces := showsOnly_ofModule (Parser.isWritten_of_runOn hm) e hp
        exact .inr ⟨.program e,by simp [hp],fun p hplace => hspans hm (hplaces p hplace)⟩
    · obtain ⟨e',rfl,hplaces⟩ := Parser.places_of_runOn_error hend harises
      rw [he]
      exact .inr ⟨_,rfl,hplaces⟩
  case kept =>
    obtain ⟨hlt,-,hholds⟩ := Parser.holds_of_mem_spans hm p hp
    simp only [Source.holds,Bool.and_eq_true,decide_eq_true_eq] at hholds
    obtain ⟨⟨⟨-,hsize⟩,hstart⟩,hstop⟩ := hholds
    exact ⟨hlt,hsize,hstart,hstop⟩

end Program

def Source.accented : Source := ⟨0,"t.hole","extension LambdaCase\nf ü = _\n"⟩

theorem Source.tokens_accented : Source.accented.tokens =
    ([⟨.keyword,"extension",0,9,true⟩,⟨.ident,"LambdaCase",10,20,false⟩,⟨.ident,"f",21,22,true⟩,
      ⟨.ident,"ü",23,25,false⟩,⟨.symbol,"=",26,27,false⟩,⟨.ident,"_",28,29,false⟩],.complete) := by
  decide +kernel

theorem Program.load_accented : ∃ p, load .accented = .ok p := by
  rw [load,Parser.runOn,Source.tokens_accented]
  exact ⟨_,rfl⟩

theorem Program.load_answers_accented : (∃ p, load .accented = .ok p) ∧
    ∃ m i, Parser.wholeModule.runOn .accented = .ok (m,i) ∧ m.spans = [⟨0,0,20⟩,⟨0,21,29⟩,⟨0,23,25⟩,⟨0,28,29⟩] ∧
      ∀ p ∈ m.spans, Source.accented.Shows p := by
  have hchars : Source.accented.chars.getLast? = some '\n' := by decide +kernel
  have hlast : ∀ c ∈ Source.accented.chars.getLast?, c.utf8Size = 1 := by
    rw [hchars]
    rintro c ⟨⟩
    rfl
  obtain ⟨-,-,-,-,-,-,hkept⟩ := load_answers hlast
  obtain ⟨m,i,hm,hspans⟩ : ∃ m i, Parser.wholeModule.runOn .accented = .ok (m,i) ∧
      m.spans = [⟨0,0,20⟩,⟨0,21,29⟩,⟨0,23,25⟩,⟨0,28,29⟩] := by
    rw [Parser.runOn,Source.tokens_accented]
    exact ⟨_,_,rfl,rfl⟩
  exact ⟨load_accented,m,i,hm,hspans,fun p hp => (hkept m i hm p hp).1⟩

end TypedHole
