namespace MetricPipeline

abbrev Bytes := List UInt8

def newline : UInt8 := 10

def utf8 (cs : List Char) : Bytes := cs.flatMap String.utf8EncodeChar

def ascii (s : String) : Bytes := utf8 s.toList

def oneLine (s : String) : List Char := s.toList.filter (· ≠ '\n')

/-- A text as it stands in a line, which a newline would end. -/
def written (s : String) : Bytes := utf8 (oneLine s)

theorem utf8_append (a b : List Char) : utf8 (a ++ b) = utf8 a ++ utf8 b := by
  simp [utf8]

end MetricPipeline
