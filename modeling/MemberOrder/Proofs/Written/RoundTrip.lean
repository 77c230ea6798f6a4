import MemberOrder.Proofs.Written.Types
/-! What is written is read back. Main statement: `parse_write`. -/
namespace MemberOrder.Written

open Rule

variable {w : List Lexeme} {g : Extent → String}

theorem fileItem?_of_modifiers {x : Symbol} {s t : List Symbol} {m : Modifiers Extent}
    (hx : opensDeclaration x ∨ ∃ w, x = .keyword (.modifier w))
    (hm : modifiers (x :: s) = .ok m t) :
    fileItem? (x :: s) =
      (packageOrType (x :: s).length m >>= fun i => pure (some i)) t := by
  obtain ⟨u, hu⟩ : ∃ u, x :: s = u := ⟨_, rfl⟩
  rw [hu] at hm ⊢
  unfold fileItem?
  rw [get_bind]
  split
  next => cases hu
  next =>
    cases hu
    simp [opensDeclaration] at hx
  next =>
    cases hu
    simp [opensDeclaration] at hx
  next => rw [bind_of_ok hm]

theorem fileItem?_of_kind {ms : List Modifier} {k : Kind} (hseal : Modifier.Sealed k.isSealable ms)
    {n : String} {s t : List Symbol} (ht : t = symbols k.lexemes ++ .identifier n :: s) :
    ∃ start m, m.map (fun _ => ()) = Modifier.tree ms ∧
      fileItem? (symbols (ms.flatMap Modifier.lexemes) ++ t) =
        (typeDecl t.length start m >>= fun d => pure (some (.type d))) t := by
  have hopens : Opens t := ht ▸ opens_kind k s n
  obtain ⟨m, hm, hmtree⟩ := modifiers_modifiers hopens.endsName hopens.modifier hseal
    fun h => ht ▸ sealsNext_kind h _
  obtain ⟨x, u, hx, hstart⟩ := head_of_modifiers ms hopens
  have hpackage (u : List Symbol) : t ≠ .keyword .package :: u := by
    intro hu
    rw [ht] at hu
    cases k <;> cases (List.cons.inj hu).1
  have hread (start : Nat) : packageOrType start m t =
      (typeDecl t.length start m >>= fun d => pure (.type d)) t := by
    unfold packageOrType
    rw [get_bind]
    split
    next => exact absurd rfl (hpackage _)
    next => rfl
  rw [hx] at hm
  refine ⟨(x :: u).length, m, hmtree, ?_⟩
  rw [hx, fileItem?_of_modifiers hstart hm]
  cases hd : typeDecl t.length (x :: u).length m t with
  | ok d v =>
    rw [bind_of_ok hd, bind_of_ok ((hread _).trans (bind_of_ok hd))]
  | error e v => rw [bind_of_error hd, bind_of_error ((hread _).trans (bind_of_error hd))]

theorem fileItem?_type (hg : Shows w g) {d : TypeDecl} {post : List Lexeme}
    (hd : d.Every TypeDecl.Clear Member.Clear) (hw : d.lexemes ++ post <:+ w) :
    ∃ raw, fileItem? (symbols (d.lexemes ++ post)) = .ok (some (.type raw)) (symbols post) ∧
      raw.map (fun _ => ()) g = d.tree := by
  rw [TypeDecl.lexemes, List.append_assoc] at hw ⊢
  obtain ⟨kind, n, s, htail, hsealed⟩ := d.symbols_tail post
  obtain ⟨start, m, hm, hitem⟩ := fileItem?_of_kind (hsealed hd.self) htail
  obtain ⟨raw, hraw, htree⟩ := d.typeDecl_tail hg (symbols (d.tail ++ post)).length start m hd
    (by simp) (List.IsSuffix.trans (List.suffix_append _ _) hw) hm
  refine ⟨raw, ?_, htree⟩
  rw [symbols_append, hitem, bind_of_ok hraw]
  rfl

theorem fileItem?_package (d : DottedName) (s : List Symbol) :
    fileItem? (.keyword .package :: (symbols d.lexemes ++ .mark .semicolon :: s)) =
      .ok (some (.package d.text)) s := by
  have hname := qualifiedName_dotted d (s := .mark .semicolon :: s) (by simp)
  have hsealed : Modifier.Sealed False [] := trivial
  obtain ⟨m, hm, _⟩ : ∃ m, modifiers (.keyword .package :: (symbols d.lexemes ++
      .mark .semicolon :: s)) = .ok m (.keyword .package :: (symbols d.lexemes ++
        .mark .semicolon :: s)) ∧ m.map (fun _ => ()) = Modifier.tree [] :=
    modifiers_modifiers (.cons (by simp) (by simp) _) rfl hsealed False.elim
  unfold fileItem?
  rw [get_bind]
  simp only
  rw [bind_of_ok hm, packageOrType]
  simp only [bind_assoc]
  rw [get_bind]
  simp only [bind_assoc]
  rw [skip_bind, bind_of_ok hname, bind_of_ok (expect_eq_ok_iff.2 rfl)]
  rfl

theorem fileItem?_import (c : Stretch [.mark .semicolon]) (s : List Symbol) :
    fileItem? (.keyword .import :: symbols c.lexemes ++ .mark .semicolon :: s) =
      .ok (some .nothing) s := by
  have hread : statement (.keyword .import :: symbols c.lexemes ++ .mark .semicolon :: s) =
      .ok () s := statement_append (.plain rfl (by decide) c.balanced) s
  rw [List.cons_append] at hread ⊢
  unfold fileItem?
  rw [get_bind]
  simp only
  rw [bind_of_ok hread]
  rfl

theorem chain_types (hg : Shows w g) (ds : List TypeDecl) (post : List Lexeme)
    (hds : ∀ d ∈ ds, d.Every TypeDecl.Clear Member.Clear)
    (hw : ds.flatMap TypeDecl.lexemes ++ post <:+ w) :
    ∃ raws : List RawType, Chain fileItem? (symbols (ds.flatMap TypeDecl.lexemes ++ post))
        (raws.map FileItem.type) (symbols post) ∧
      raws.map (MemberOrder.TypeDecl.map (fun _ => ()) g) = ds.map TypeDecl.tree := by
  induction ds with
  | nil => exact ⟨[], .nil _, rfl⟩
  | cons d ds ih =>
    rw [List.flatMap_cons, List.append_assoc] at hw ⊢
    obtain ⟨raw, hraw, htree⟩ := fileItem?_type hg (hds d (by simp)) hw
    obtain ⟨raws, hraws, htrees⟩ := ih (fun e he => hds e (by simp [he]))
      (List.IsSuffix.trans (List.suffix_append _ _) hw)
    have hpos := (starts_modifiers d.modifiers (starts_tail d)).length_pos
    refine ⟨raw :: raws, .cons hraw ?_ hraws, by simp [htree, htrees]⟩
    simp only [length_symbols, List.length_append, TypeDecl.lexemes] at hpos ⊢
    omega

theorem chain_imports (cs : List (Stretch [.mark .semicolon])) (post : List Lexeme) :
    Chain fileItem? (symbols (cs.flatMap (fun c => .keyword .import ::
        (c.lexemes ++ [.mark .semicolon])) ++ post))
      (List.replicate cs.length .nothing) (symbols post) := by
  induction cs with
  | nil => exact .nil _
  | cons c cs ih =>
    have hread := fileItem?_import c (symbols (cs.flatMap (fun c => .keyword .import ::
        (c.lexemes ++ [.mark .semicolon])) ++ post))
    simp only [List.flatMap_cons, symbols_cons, symbols_append, List.cons_append,
      List.append_assoc, List.nil_append, Lexeme.symbol_keyword, Lexeme.symbol_mark] at hread ih ⊢
    refine .cons hread ?_ ih
    simp only [List.length_cons, List.length_append]
    omega

theorem File.chain_package (f : File) (post : List Lexeme) :
    Chain fileItem? (symbols (f.package ++ post)) (f.package?.toList.map fun d => .package d.text)
      (symbols post) := by
  unfold File.package
  cases f.package? with
  | none => exact .nil _
  | some d =>
    have hread := fileItem?_package d (symbols post)
    simp only [Option.elim_some, symbols_cons, symbols_append, List.cons_append, List.append_assoc,
      List.nil_append, Lexeme.symbol_keyword, Lexeme.symbol_mark]
    exact .cons hread (by simp; omega) (.nil _)

def File.items (f : File) (raws : List RawType) : List FileItem :=
  f.package?.toList.map (fun d => .package d.text) ++
    (List.replicate f.imports.length .nothing ++ raws.map .type)

theorem filterMap_type?_types (raws : List RawType) :
    (raws.map FileItem.type).filterMap FileItem.type? = raws := by
  have htype : FileItem.type? ∘ FileItem.type = some := rfl
  rw [List.filterMap_map, htype, List.filterMap_some]

theorem filterMap_package?_types (raws : List RawType) :
    (raws.map FileItem.type).filterMap FileItem.package? = [] := by
  simp [FileItem.package?]

theorem File.filterMap_type?_items (f : File) (raws : List RawType) :
    (f.items raws).filterMap FileItem.type? = raws := by
  have hpackage : (f.package?.toList.map fun d => FileItem.package d.text).filterMap FileItem.type? =
      [] := by
    cases f.package? <;> rfl
  rw [File.items, List.filterMap_append, List.filterMap_append, hpackage, filterMap_type?_types]
  simp [List.filterMap_replicate, FileItem.type?]

theorem File.filterMap_package?_items (f : File) (raws : List RawType) :
    (f.items raws).filterMap FileItem.package? = f.package?.toList.map DottedName.text := by
  have hpackage : (f.package?.toList.map fun d => FileItem.package d.text).filterMap
      FileItem.package? = f.package?.toList.map DottedName.text := by
    cases f.package? <;> rfl
  rw [File.items, List.filterMap_append, List.filterMap_append, hpackage, filterMap_package?_types]
  simp [List.filterMap_replicate, FileItem.package?]

theorem File.chain_lexemes (hg : Shows w g) (f : File) (post : List Lexeme) (hf : f.Clear)
    (hw : f.lexemes ++ post <:+ w) :
    ∃ raws, Chain fileItem? (symbols (f.lexemes ++ post)) (f.items raws) (symbols post) ∧
      raws.map (MemberOrder.TypeDecl.map (fun _ => ()) g) = f.types.map TypeDecl.tree := by
  rw [File.lexemes, List.append_assoc, List.append_assoc] at hw ⊢
  obtain ⟨raws, hraws, htrees⟩ := chain_types hg f.types post hf <|
    List.IsSuffix.trans (List.IsSuffix.trans (List.suffix_append _ _) (List.suffix_append _ _)) hw
  exact ⟨raws, (f.chain_package _).append ((chain_imports f.imports _).append hraws), htrees⟩

theorem getLast?_toList {α β : Type} (f : α → β) (o : Option α) :
    (o.toList.map f).getLast? = o.map f := by
  cases o <;> rfl

theorem file_lexemes (hg : Shows w g) {f : File} (hf : f.Clear) (hw : f.lexemes <:+ w) :
    ∃ raw, file (symbols f.lexemes) = .ok raw [] ∧ raw.map (fun _ => ()) g = f.tree := by
  rw [← List.append_nil f.lexemes] at hw ⊢
  obtain ⟨raws, hraws, htrees⟩ := f.chain_lexemes hg [] hf hw
  have hitems : many fileItem? (symbols (f.lexemes ++ [])) = .ok (f.items raws) [] :=
    hraws.many_end rfl
  refine ⟨_, (bind_of_ok hitems).trans rfl, ?_⟩
  rw [CompilationUnit.map, f.filterMap_package?_items, f.filterMap_type?_items, getLast?_toList, htrees]
  rfl

/-- A file that is written down is read back as the same tree, up to places and the white space in
the text of types. -/
theorem parse_write (f : File) (h : f.Clear) : ∃ u, parse (write f.lexemes) = .ok u ∧
    u.map (fun _ => ()) unspaced = f.tree := by
  have hg : Shows f.lexemes (unspaced ∘ (reading f.lexemes).textAt) := by
    rintro t post ht ⟨pre, hpre⟩
    rw [← hpre]
    exact unspaced_textAt ht
  obtain ⟨raw, hraw, htree⟩ := file_lexemes hg h (List.suffix_refl _)
  refine ⟨(reading f.lexemes).located raw, ?_, ?_⟩
  · rw [parse_write_eq, Reading.next, reading, hraw]
  · rw [Reading.located, CompilationUnit.map_map, ← htree]

/-- `package item ; import item . ;`, then
`sealed abstract class Box { final < item > Box < item > [ ] item = item , Box ;`
`record item ( ) { item { } } Box ( ) { } @ Box Box item ( ) ; }`. -/
def File.boxes : File where
  package? := some ⟨.item, []⟩
  imports := [⟨[Name.item.lexeme, .mark .dot], .plain rfl rfl (.plain rfl rfl .nil)⟩]
  types := [.mk .class .box [.sealed, .reserved .abstract] ⟨[], .nil⟩ [
    .field [.reserved .final] (some ⟨⟨[Name.item.lexeme, .mark .greater],
        .plain rfl (by decide) (.greater .done)⟩, []⟩)
      ⟨.box, [.arguments ⟨[Name.item.lexeme, .mark .greater],
        .plain rfl (by decide) (.greater .done)⟩, .dimension]⟩ .item
      ⟨[], some ⟨[Name.item.lexeme], .plain rfl rfl .nil⟩⟩ [(.box, ⟨[], none⟩)],
    .type (.mk .record .item [] ⟨grouped .round ⟨[], .nil⟩, .group rfl .nil .nil⟩
      [.compact [] none ⟨[], .nil⟩]),
    .constructor [] none ⟨[], .nil⟩ ⟨[], .nil⟩ ⟨[], .nil⟩,
    .method [.annotated ⟨⟨.box, []⟩, none⟩] none ⟨.box, []⟩ .item ⟨[], .nil⟩ ⟨[], .nil⟩ .semicolon]]

theorem parse_write_boxes : File.boxes.Clear ∧ ∃ u, parse (write File.boxes.lexemes) = .ok u ∧
    u.map (fun _ => ()) unspaced = File.boxes.tree := by
  have h : File.boxes.Clear := by
    intro d hd
    rw [List.mem_singleton.1 hd]
    simp [TypeDecl.Every, Member.Every, Member.EveryOf, TypeDecl.Clear, Member.Clear,
      Modifier.Sealed, TypeUse.NotRecord, Name.box, Name.item]
  exact ⟨h, parse_write File.boxes h⟩

/-- `sealed record Box ( ) { }`. -/
def File.sealedRecord : File where
  package? := none
  imports := []
  types := [.mk .record .box [.sealed] ⟨grouped .round ⟨[], .nil⟩, .group rfl .nil .nil⟩ []]

/-- `class Box { record item ; }`. -/
def File.recordField : File where
  package? := none
  imports := []
  types := [.mk .class .box [] ⟨[], .nil⟩ [.field [] none ⟨.record, []⟩ .item ⟨[], none⟩ []]]

/-- A record is not sealed, and no field or method is of a type that is just called `record`. -/
theorem parse_write_ne_tree :
    (File.sealedRecord.WellFormed ∧ ¬ ∃ u, parse (write File.sealedRecord.lexemes) = .ok u ∧
      u.map (fun _ => ()) unspaced = File.sealedRecord.tree) ∧
    (File.recordField.WellFormed ∧ ¬ ∃ u, parse (write File.recordField.lexemes) = .ok u ∧
      u.map (fun _ => ()) unspaced = File.recordField.tree) := by
  have hrefused {f : File} (hf : ∃ e s, Rule.file (symbols f.lexemes) = .error e s) :
      ¬ ∃ u, parse (write f.lexemes) = .ok u ∧ u.map (fun _ => ()) unspaced = f.tree := by
    rintro ⟨u, hu, _⟩
    obtain ⟨e, s, he⟩ := hf
    rw [parse_write_eq, Reading.next, reading, he] at hu
    cases hu
  refine ⟨⟨?_, hrefused ⟨_, _, by cbv⟩⟩, ?_, hrefused ⟨_, _, by cbv⟩⟩
  · simp [File.WellFormed, File.sealedRecord, TypeDecl.Every, Member.EveryOf]
  · simp [File.WellFormed, File.recordField, TypeDecl.Every, Member.EveryOf, Member.Every,
      Member.Fits]

end MemberOrder.Written
