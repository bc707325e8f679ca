import Timeline.Value.Basic

/-! # Settings

What can be set from outside.
-/

namespace Timeline

/-- The colors given to suggested rules, in turn. -/
def defaultPalette : List String :=
  ["#1f77b4", "#ff7f0e", "#2ca02c", "#d62728", "#9467bd", "#8c564b", "#e377c2", "#7f7f7f",
    "#bcbd22", "#17becf"]

/-- What can be set from outside. A document may hold `maxFileSize` bytes, or any number of them
if that is zero. -/
structure Settings where
  logLevel : String := "INFO"
  logFile : Option String := none
  maxFileSize : Number := .int 10485760
  supportedExtensions : List String := [".json"]
  maxPathDepth : Int := 3
  palette : List Value := defaultPalette.map .text
  rulesFile : String := "timeline-config.json"
  serverName : String := "127.0.0.1"
  serverPort : Int := 7860

namespace Settings

def toFields (s : Settings) : Fields :=
  [("log_level", .text s.logLevel), ("log_file", Value.orNull (s.logFile.map .text)),
    ("max_file_size", Value.ofNumber s.maxFileSize),
    ("supported_extensions", Value.ofTexts s.supportedExtensions),
    ("available_paths_max_depth", .int s.maxPathDepth), ("color_palette", .list s.palette),
    ("rules_file", .text s.rulesFile), ("server_name", .text s.serverName),
    ("server_port", .int s.serverPort)]

end Settings

end Timeline
