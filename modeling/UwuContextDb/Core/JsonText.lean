import UwuContextDb.Core.DebugText
import UwuContextDb.Library.Words

/-! How `serde_json` writes strings and lists of strings; what it writes is told from what follows it. -/

namespace UwuContextDb.Text

open Delimited

/-- How `serde_json` writes a character of a string. -/
def escapeJson (c : Char) : List Char :=
  if c = '"' then ['\\', '"']
  else if c = '\\' then ['\\', '\\']
  else if c = '\x08' then ['\\', 'b']
  else if c = '\t' then ['\\', 't']
  else if c = '\n' then ['\\', 'n']
  else if c = '\x0c' then ['\\', 'f']
  else if c = '\r' then ['\\', 'r']
  else if c.toNat < 32 then ['\\', 'u', '0', '0', hexDigit (c.toNat / 16), hexDigit (c.toNat % 16)]
  else [c]

def jsonString (text : String) : List Char := '"'::(text.toList.flatMap escapeJson ++ ['"'])

def jsonStrings : List String → List Char
  | [] => ['[', ']']
  | text::texts => '['::(jsonString text ++ (texts.flatMap (fun text => ','::jsonString text) ++ [']']))

def readJson : List Char → Option (Char × List Char)
  | '\\' :: '"'::text => some ('"', text)
  | '\\' :: '\\'::text => some ('\\', text)
  | '\\' :: 'b'::text => some ('\x08', text)
  | '\\' :: 't'::text => some ('\t', text)
  | '\\' :: 'n'::text => some ('\n', text)
  | '\\' :: 'f'::text => some ('\x0c', text)
  | '\\' :: 'r'::text => some ('\r', text)
  | '\\' :: 'u' :: '0' :: '0'::high::low::text => some (Char.ofNat (hexValue high * 16 + hexValue low), text)
  | c::text => some (c, text)
  | [] => none

theorem readJson_escapeJson (c : Char) (text : List Char) : readJson (escapeJson c++text) = some (c, text) := by
  unfold escapeJson
  split_ifs with hq hs hb ht hl hf hr hc
  · subst hq
    rfl
  · subst hs
    rfl
  · subst hb
    rfl
  · subst ht
    rfl
  · subst hl
    rfl
  · subst hf
    rfl
  · subst hr
    rfl
  · have hh : hexValue (hexDigit (c.toNat / 16)) = c.toNat / 16 := hexValue_hexDigit (by omega)
    have ho : hexValue (hexDigit (c.toNat % 16)) = c.toNat % 16 := hexValue_hexDigit (by omega)
    have hv : c.toNat / 16 * 16 + c.toNat % 16 = c.toNat := by omega
    simp only [List.cons_append,List.nil_append,readJson]
    rw [hh,ho,hv,Char.ofNat_toNat]
  · have ha : ∀ rest : List Char, readJson (c::rest) = some (c, rest) := by
      intro rest
      unfold readJson
      split <;> simp_all
    exact ha text

theorem escapeJson_ne_quote (c : Char) (rest rest' : List Char) : escapeJson c ++ rest ≠ '"'::rest' := by
  intro h
  have hr := readJson_escapeJson c rest
  rw [h] at hr
  obtain rfl : '"' = c := (Prod.mk.inj (Option.some.inj hr)).1
  cases h

theorem delimits_jsonString : Delimits jsonString := by
  have hc : Delimits (fun text : List Char => text.flatMap escapeJson++['"']) :=
    (delimits_of_read readJson_escapeJson).many escapeJson_ne_quote
  intro text text' rest rest' h
  obtain ⟨ht,hr⟩ := hc (List.cons.inj h).2
  exact ⟨String.toList_inj.mp ht,hr⟩

theorem delimits_jsonStrings : Delimits jsonStrings := by
  have hm : Delimits (fun texts : List String => texts.flatMap (fun text => ','::jsonString text)++[']']) :=
    (delimits_jsonString.cons ',').many (fun _ _ _ h => absurd (List.cons.inj h).1 (by decide))
  intro texts texts' rest rest' h
  cases texts with
  | nil =>
    cases texts' with
    | nil => exact ⟨rfl,(List.cons.inj (List.cons.inj h).2).2⟩
    | cons text' texts' => exact absurd (List.cons.inj (List.cons.inj h).2).1 (by decide)
  | cons text texts =>
    cases texts' with
    | nil => exact absurd (List.cons.inj (List.cons.inj h).2).1 (by decide)
    | cons text' texts' =>
      have hs : jsonString text ++ (texts.flatMap (fun text => ','::jsonString text)++[']']++rest) =
          jsonString text' ++ (texts'.flatMap (fun text => ','::jsonString text)++[']']++rest') := by
        rw [← List.append_assoc,← List.append_assoc (jsonString text')]
        exact (List.cons.inj h).2
      obtain ⟨rfl,ht⟩ := delimits_jsonString hs
      obtain ⟨rfl,hr⟩ := hm ht
      exact ⟨rfl,hr⟩

end UwuContextDb.Text
