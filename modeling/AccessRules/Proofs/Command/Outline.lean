import AccessRules.Command.Outline
import AccessRules.Proofs.Command.Source

/-!
# Outlines determine rules

The lines of an outline tell the levels and the words of its entries, the entries tell the
rows of the rule, and the rows tell the rule. Labels are not needed for any of this, and
without labels there is nothing else in an outline.
-/

namespace AccessRules

/-!
## Codes in a row

A list is known from the codes of its members in a row, if it can be told where each code
ends.
-/

theorem append_inj_of_stop {stops : α -> Bool} {later otherLater : List α}
    (hlater : forall c, c ∈ later.head? -> stops c = true)
    (hother : forall c, c ∈ otherLater.head? -> stops c = true) :
    (front other : List α) -> (forall c, c ∈ front -> stops c = false) ->
      (forall c, c ∈ other -> stops c = false) ->
        front ++ later = other ++ otherLater -> front = other ∧ later = otherLater
  | [], [], _, _, h => ⟨rfl, h⟩
  | [], c :: others, _, hgoing, h => by
      have hbehind : later = c :: (others ++ otherLater) := h
      rw [hbehind] at hlater
      have hstop := hlater c rfl
      rw [hgoing c List.mem_cons_self] at hstop
      cases hstop
  | c :: rest, [], hgoing, _, h => by
      have hbehind : otherLater = c :: (rest ++ later) := h.symm
      rw [hbehind] at hother
      have hstop := hother c rfl
      rw [hgoing c List.mem_cons_self] at hstop
      cases hstop
  | c :: rest, d :: others, hgoing, hotherGoing, h => by
      injection h with hhead htail
      rcases append_inj_of_stop hlater hother rest others (List.forall_mem_cons.mp hgoing).2
          (List.forall_mem_cons.mp hotherGoing).2 htail with ⟨hrest, hbehind⟩
      exact ⟨by rw [hhead, hrest], hbehind⟩

theorem map_eq_of_flatMap_eq {code : α -> List β} {key : α -> γ} (goesOn : List β -> Prop)
    (hnil : goesOn []) (hcode : forall item later, goesOn (code item ++ later))
    (hne : forall item, code item ≠ [])
    (hsplit : forall item other later otherLater, goesOn later -> goesOn otherLater ->
      code item ++ later = code other ++ otherLater -> key item = key other ∧ later = otherLater) :
    (items others : List α) -> items.flatMap code = others.flatMap code ->
      items.map key = others.map key
  | [], [], _ => rfl
  | [], other :: others, h => by
      rw [List.flatMap_nil, List.flatMap_cons] at h
      exact absurd (List.append_eq_nil_iff.mp h.symm).1 (hne other)
  | item :: items, [], h => by
      rw [List.flatMap_nil, List.flatMap_cons] at h
      exact absurd (List.append_eq_nil_iff.mp h).1 (hne item)
  | item :: items, other :: others, h => by
      have hgoesOn : forall members : List α, goesOn (members.flatMap code) := by
        intro members
        cases members with
        | nil =>
            exact hnil
        | cons first rest =>
            rw [List.flatMap_cons]
            exact hcode first _
      rw [List.flatMap_cons, List.flatMap_cons] at h
      rcases hsplit item other _ _ (hgoesOn items) (hgoesOn others) h with ⟨hkey, hrest⟩
      rw [List.map_cons, List.map_cons, hkey,
        map_eq_of_flatMap_eq goesOn hnil hcode hne hsplit items others hrest]

namespace Command

open Expression (Token parse)

/-!
## Lines of an outline
-/

theorem rendered_recipientWrite (depth : Nat) (lone : Recipient) :
    (recipientWrite depth lone).rendered =
      (Entry.mk (depth + 1) (.recipient lone)).line ++
        (Entry.mk (depth + 1) (.recipient lone)).note ++ "\n" := by
  rw [recipientWrite, rendered_lineWrite, <- String.append_assoc]
  rfl

theorem map_rendered_rowWrites (row : Rule.Row) :
    (rowWrites row).map (fun write => write.rendered) =
      (rowEntries row).map fun entry => entry.line ++ entry.note ++ "\n" := by
  rw [rowWrites, rowEntries, List.map_cons, List.map_cons, List.map_map, List.map_map,
    rendered_lineWrite]
  congr 1
  · exact congrArg (· ++ "\n") String.append_empty.symm
  · exact List.map_congr_left fun lone _ => rendered_recipientWrite row.depth lone

theorem written_outline (rule : Rule) : written (outline rule) = outlineWith Entry.note rule := by
  rw [written, Text.renderAll, List.map_map, outline, outlineWith, entries, List.map_flatMap,
    List.map_flatMap]
  congr 2
  funext row
  exact map_rendered_rowWrites row

/-!
## Labelled entries
-/

namespace Entry

/-- The entry with its recipient, if it shows one, labelled by a naming. -/
def named (naming : Naming) (entry : Entry) : Entry :=
  match entry.token with
  | .connective keyword => ⟨entry.level, .connective keyword⟩
  | .recipient lone => ⟨entry.level, .recipient (lone.named naming)⟩

/-- The entry with its token as the word of it reads. -/
def unlabelled (entry : Entry) : Entry :=
  { entry with token := entry.token.unlabelled }

theorem named_token (entry : Entry) :
    entry.named (fun recipient => some recipient.token) = entry.unlabelled := by
  rcases entry with ⟨level, keyword | lone⟩ <;> rfl

end Entry

theorem entries_namedTree (naming : Naming) (rule : Rule) :
    entries (Rule.namedTree naming rule) = (entries rule).map (Entry.named naming) := by
  rw [entries, entries, Rule.rows_namedTree, List.flatMap_map, List.map_flatMap]
  congr 1
  funext row
  rw [rowEntries, rowEntries, List.map_cons, List.map_map, Rule.Row.named, List.map_map]
  rfl

theorem entries_unlabelled (rule : Rule) :
    entries rule.unlabelled = (entries rule).map Entry.unlabelled := by
  rw [Rule.unlabelled, entries_namedTree]
  exact List.map_congr_left fun entry _ => entry.named_token

/-!
## From lines to entries

A line starts with spaces, its word starts with no space, and no word holds a line break. So
the level and the word of an entry can be told from its line.
-/

theorem toList_line (entry : Entry) :
    (entry.line ++ "\n").toList =
      List.replicate (2 * entry.level) ' ' ++ (entry.token.word.toList ++ ['\n']) := by
  rw [Entry.line, Call.indentation, String.toList_append, String.toList_append,
    Text.toList_spaces, List.append_assoc]
  rfl

theorem head?_word_append {token : Token} {later : List Char} {c : Char}
    (h : c ∈ (token.word.toList ++ later).head?) : c ≠ ' ' := by
  rcases token.isWord_word with ⟨hne, hword⟩
  cases hchars : token.word.toList with
  | nil =>
      exact absurd (String.toList_eq_nil_iff.mp hchars) hne
  | cons first rest =>
      rw [hchars] at h
      cases h
      have hc := hword c (hchars ▸ List.mem_cons_self)
      rintro rfl
      cases hc

theorem spaces_append_inj {count other : Nat} {later otherLater : List Char}
    (hlater : forall c, c ∈ later.head? -> c ≠ ' ')
    (hother : forall c, c ∈ otherLater.head? -> c ≠ ' ')
    (h : List.replicate count ' ' ++ later = List.replicate other ' ' ++ otherLater) :
    count = other ∧ later = otherLater := by
  have hspaces : forall (count : Nat) (c : Char),
      c ∈ List.replicate count ' ' -> decide (c ≠ ' ') = false := by
    intro count c hc
    rw [List.eq_of_mem_replicate hc]
    rfl
  rcases append_inj_of_stop (fun c hc => decide_eq_true (hlater c hc))
      (fun c hc => decide_eq_true (hother c hc)) _ _ (hspaces _) (hspaces _) h with
    ⟨hindent, hbehind⟩
  exact ⟨by simpa using congrArg List.length hindent, hbehind⟩

theorem word_append_inj {token other : Token} {later otherLater : List Char}
    (h : token.word.toList ++ ('\n' :: later) = other.word.toList ++ ('\n' :: otherLater)) :
    token.unlabelled = other.unlabelled ∧ later = otherLater := by
  have hletters : forall (token : Token) (c : Char),
      c ∈ token.word.toList -> decide (c = '\n') = false := by
    intro token c hc
    apply decide_eq_false
    rintro rfl
    exact Text.onOneLine_of_isWord token.isWord_word hc
  have hbreak : forall (later : List Char) (c : Char),
      c ∈ ('\n' :: later).head? -> decide (c = '\n') = true := by
    intro later c hc
    cases hc
    rfl
  rcases append_inj_of_stop (hbreak later) (hbreak otherLater) _ _ (hletters _) (hletters _) h
    with ⟨hword, hbehind⟩
  have hread := token.read_word
  rw [String.toList_injective hword, other.read_word] at hread
  exact ⟨(Except.ok.inj hread).symm, (List.cons.inj hbehind).2⟩

theorem line_append_inj {entry other : Entry} {later otherLater : List Char}
    (h : (entry.line ++ "\n").toList ++ later = (other.line ++ "\n").toList ++ otherLater) :
    entry.unlabelled = other.unlabelled ∧ later = otherLater := by
  rw [toList_line, toList_line, List.append_assoc, List.append_assoc, List.append_assoc,
    List.append_assoc] at h
  rcases spaces_append_inj (fun _ => head?_word_append) (fun _ => head?_word_append) h with
    ⟨hindent, hline⟩
  rcases word_append_inj hline with ⟨htoken, hbehind⟩
  refine ⟨?_, hbehind⟩
  rw [Entry.unlabelled, Entry.unlabelled, htoken, Nat.eq_of_mul_eq_mul_left (by decide) hindent]

/-!
## From entries to rows
-/

def isNode (entry : Entry) : Bool :=
  match entry.token with
  | .connective _ => true
  | .recipient _ => false

/-- The entries go on with a node. -/
def GoOnWithNode (later : List Entry) : Prop :=
  forall entry, entry ∈ later.head? -> isNode entry = true

theorem rowEntries_append_inj {row other : Rule.Row} {later otherLater : List Entry}
    (hlater : GoOnWithNode later) (hother : GoOnWithNode otherLater)
    (h : rowEntries row ++ later = rowEntries other ++ otherLater) :
    row = other ∧ later = otherLater := by
  rw [rowEntries, rowEntries, List.cons_append, List.cons_append] at h
  injection h with hnode hentries
  injection hnode with hdepth hconnective
  have hrecipients : forall (row : Rule.Row) (entry : Entry),
      entry ∈ row.recipients.map (fun lone => Entry.mk (row.depth + 1) (.recipient lone)) ->
        isNode entry = false := by
    intro row entry hentry
    rcases List.mem_map.mp hentry with ⟨lone, -, rfl⟩
    rfl
  rcases append_inj_of_stop hlater hother _ _ (hrecipients row) (hrecipients other) hentries with
    ⟨hmap, hbehind⟩
  refine ⟨?_, hbehind⟩
  rcases row with ⟨depth, connective, recipients⟩
  rcases other with ⟨otherDepth, otherConnective, otherRecipients⟩
  cases hdepth
  cases hconnective
  have hinjective : Function.Injective fun lone => Entry.mk (depth + 1) (Token.recipient lone) := by
    intro a b hab
    injection hab with _ htoken
    injection htoken
  have hall : recipients = otherRecipients := List.map_injective_iff.mpr hinjective hmap
  rw [hall]

theorem entries_injective {rule other : Rule} (h : entries rule = entries other) :
    rule = other := by
  have hnode : forall (row : Rule.Row) (later : List Entry),
      GoOnWithNode (rowEntries row ++ later) := by
    intro row later entry hentry
    cases hentry
    rfl
  have hrows : rule.rows.map id = other.rows.map id :=
    map_eq_of_flatMap_eq GoOnWithNode nofun hnode (fun row => List.cons_ne_nil _ _)
      (fun row other later otherLater => rowEntries_append_inj) _ _ h
  rw [List.map_id, List.map_id] at hrows
  exact Rule.rows_injective hrows

/-!
## Outlines without notes
-/

theorem toList_outlineWith_nothing (rule : Rule) :
    (outlineWith (fun _ => "") rule).toList =
      (entries rule).flatMap fun entry => (entry.line ++ "\n").toList := by
  rw [outlineWith, String.toList_join, List.flatMap_map]
  congr 1
  funext entry
  exact congrArg (fun text => (text ++ "\n").toList) String.append_empty

theorem outlineWith_nothing_unlabelled (rule : Rule) :
    outlineWith (fun _ => "") rule.unlabelled = outlineWith (fun _ => "") rule := by
  rw [outlineWith, entries_unlabelled, List.map_map, outlineWith]
  congr 1
  apply List.map_congr_left
  rintro ⟨level, keyword | lone⟩ _ <;> rfl

/-- The lines alone tell a rule up to its labels. -/
theorem outlineWith_nothing_eq_iff_same {rule other : Rule} :
    outlineWith (fun _ => "") rule = outlineWith (fun _ => "") other ↔ rule.same other = true := by
  rw [Rule.same_iff_unlabelled]
  constructor
  · intro h
    have hlines := congrArg String.toList h
    rw [toList_outlineWith_nothing, toList_outlineWith_nothing] at hlines
    have hne : forall entry : Entry, (entry.line ++ "\n").toList ≠ [] := by
      intro entry hnil
      rw [toList_line] at hnil
      exact absurd (List.append_eq_nil_iff.mp (List.append_eq_nil_iff.mp hnil).2).2 nofun
    have hentries : (entries rule).map Entry.unlabelled = (entries other).map Entry.unlabelled :=
      map_eq_of_flatMap_eq (fun _ => True) trivial (fun _ _ => trivial) hne
        (fun entry other later otherLater _ _ => line_append_inj) _ _ hlines
    rw [<- entries_unlabelled, <- entries_unlabelled] at hentries
    exact entries_injective hentries
  · intro h
    rw [<- outlineWith_nothing_unlabelled, h, outlineWith_nothing_unlabelled]

theorem note_of_mem_entries {rule : Rule} (h : rule.unlabelled = rule) {entry : Entry}
    (hentry : entry ∈ entries rule) : entry.note = "" := by
  rw [<- h, entries_unlabelled] at hentry
  rcases List.mem_map.mp hentry with ⟨⟨level, keyword | lone⟩, -, rfl⟩
  · rfl
  · have hlabelled : lone.unlabelled.isLabelled = false := bne_self_eq_false lone.token
    show (if lone.unlabelled.isLabelled = true then _ else "") = ""
    rw [hlabelled]
    rfl

theorem written_outline_of_unlabelled {rule : Rule} (h : rule.unlabelled = rule) :
    written (outline rule) = outlineWith (fun _ => "") rule := by
  rw [written_outline, outlineWith, outlineWith]
  congr 1
  apply List.map_congr_left
  intro entry hentry
  rw [note_of_mem_entries h hentry]

/-!
## Outlines of expressions
-/

theorem parse_of_canonical_success {source : Source} {invocation : Invocation}
    {settings : Settings} {around : Surroundings}
    (h : (source.run (invocation.asking .canonical) settings around).ending = .ok .success) :
    exists rule, parse settings.limit source.text = .ok rule := by
  cases hparse : parse settings.limit source.text with
  | ok rule =>
      exact ⟨rule, rfl⟩
  | error fault =>
      rw [Source.run_canonical_of_error invocation around hparse] at h
      cases h

/-- Rules without labels have one outline just when they are the same node for node. So two
expressions have one outline just when they have one canonical line. -/
theorem outline_tells_rules_apart :
    (forall rule other : Rule,
      (forall recipient, recipient ∈ rule.allRecipients -> recipient.isLabelled = false) ->
        (forall recipient, recipient ∈ other.allRecipients -> recipient.isLabelled = false) ->
          (written (outline rule) = written (outline other) ↔ rule.same other = true)) ∧
      forall (source other : Source) (invocation : Invocation) (settings : Settings)
        (around : Surroundings),
        invocation.names = none -> invocation.json = false ->
          let ran := fun action (source : Source) =>
            source.run (invocation.asking action) settings around
          (ran .canonical source).ending = .ok .success ->
            (ran .canonical other).ending = .ok .success ->
              (written (ran .tree source).writes = written (ran .tree other).writes ↔
                written (ran .canonical source).writes =
                  written (ran .canonical other).writes) := by
  constructor
  · intro rule other hrule hother
    rw [written_outline_of_unlabelled ((Rule.unlabelled_eq_self_iff rule).mpr hrule),
      written_outline_of_unlabelled ((Rule.unlabelled_eq_self_iff other).mpr hother)]
    exact outlineWith_nothing_eq_iff_same
  · intro source other invocation settings around hnames hjson ran hsource hother
    rcases parse_of_canonical_success hsource with ⟨rule, hrule⟩
    rcases parse_of_canonical_success hother with ⟨otherRule, hotherRule⟩
    have houtline : forall {source : Source} {rule : Rule},
        parse settings.limit source.text = .ok rule ->
          written (ran .tree source).writes = outlineWith (fun _ => "") rule := by
      intro source rule h
      show written (source.run (invocation.asking .tree) settings around).writes = _
      rw [Source.run_tree_of_parse invocation around h hnames, hjson]
      exact written_outline_of_unlabelled (Expression.reading_of_parse h).2.2
    have hline : forall {source : Source} {rule : Rule},
        parse settings.limit source.text = .ok rule ->
          written (ran .canonical source).writes = rule.spell ++ "\n" := by
      intro source rule h
      show written (source.run (invocation.asking .canonical) settings around).writes = _
      rw [Source.run_canonical_of_parse invocation around h, canonicalLine, written_single,
        rendered_lineWrite_zero]
    rw [houtline hrule, houtline hotherRule, hline hrule, hline hotherRule,
      String.append_left_inj, Expression.spell_eq_iff_same hrule hotherRule]
    exact outlineWith_nothing_eq_iff_same

/-- Two rules that differ in one level of their outlines, and two expressions that are grouped
in different ways. -/
theorem outline_tells_rules_apart_by_level :
    exists (rule other : Rule) (source otherSource : Source) (invocation : Invocation)
        (settings : Settings) (around : Surroundings),
      rule = ⟨.or, [.everyone], [⟨.and, [], [⟨.not, [], []⟩]⟩]⟩ ∧
        other = ⟨.or, [.everyone], [⟨.and, [], []⟩, ⟨.not, [], []⟩]⟩ ∧
          written (outline rule) ≠ written (outline other) ∧
            source = .operands "U:a" ["U:b AND", "U:c", "AND"] ∧
              otherSource = .input "U:a\nU:b U:c AND AND\n" ∧
                written (source.run (invocation.asking .tree) settings around).writes =
                  written (otherSource.run (invocation.asking .tree) settings around).writes := by
  have hrules := outline_tells_rules_apart.1
    ⟨.or, [.everyone], [⟨.and, [], [⟨.not, [], []⟩]⟩]⟩
    ⟨.or, [.everyone], [⟨.and, [], []⟩, ⟨.not, [], []⟩]⟩
    ((Rule.unlabelled_eq_self_iff _).mp rfl) ((Rule.unlabelled_eq_self_iff _).mp rfl)
  have hapart : Rule.same ⟨.or, [.everyone], [⟨.and, [], [⟨.not, [], []⟩]⟩]⟩
      ⟨.or, [.everyone], [⟨.and, [], []⟩, ⟨.not, [], []⟩]⟩ = false := by
    rw [Rule.same_eq_sameTree]
    rfl
  have hgrouped : parse (Settings.mk .warn 5).limit
      (Source.operands "U:a" ["U:b AND", "U:c", "AND"]).text =
      .ok ⟨.and, [⟨.user, "a", "U:a", rfl⟩, ⟨.user, "b", "U:b", rfl⟩,
        ⟨.user, "c", "U:c", rfl⟩], []⟩ := rfl
  have hregrouped : parse (Settings.mk .warn 5).limit
      (Source.input "U:a\nU:b U:c AND AND\n").text =
      .ok ⟨.and, [⟨.user, "a", "U:a", rfl⟩, ⟨.user, "b", "U:b", rfl⟩,
        ⟨.user, "c", "U:c", rfl⟩], []⟩ := rfl
  have hruns := outline_tells_rules_apart.2 (.operands "U:a" ["U:b AND", "U:c", "AND"])
    (.input "U:a\nU:b U:c AND AND\n") ⟨.tree, none, none, none, false, []⟩ ⟨.warn, 5⟩
    ⟨ByteArray.empty, fun _ => .error .missing⟩ rfl rfl
  simp only [Source.run_canonical_of_parse _ _ hgrouped,
    Source.run_canonical_of_parse _ _ hregrouped] at hruns
  refine ⟨_, _, _, _, ⟨.tree, none, none, none, false, []⟩, ⟨.warn, 5⟩,
    ⟨ByteArray.empty, fun _ => .error .missing⟩, rfl, rfl, ?_, rfl, rfl, ?_⟩
  · intro houtline
    rw [hrules.mp houtline] at hapart
    cases hapart
  · exact (hruns trivial trivial).mpr trivial

end Command
end AccessRules
