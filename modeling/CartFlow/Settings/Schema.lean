/-!
# The schema of settings files

A description of settings files for editors that check JSON.
-/
namespace CartFlow.Settings

def schemaLines : List String := [
  "\x7b",
  "  \"$schema\": \"https://json-schema.org/draft/2020-12/schema\",",
  "  \"$id\": \"https://github.com/retroenv/snescfa/internal/config/config\",",
  "  \"$ref\": \"#/$defs/Config\",",
  "  \"$defs\": \x7b",
  "    \"Address\": \x7b",
  "      \"type\": \"string\",",
  "      \"pattern\": \"^(0x|\\\\$)?[0-9A-Fa-f]\x7b1,6\x7d$\",",
  "      \"title\": \"Address\",",
  "      \"description\": \"24 bit CPU address, for example 0xC0FF28 or $C0FF28\"",
  "    \x7d,",
  "    \"Config\": \x7b",
  "      \"properties\": \x7b",
  "        \"trackRoutine\": \x7b",
  "          \"$ref\": \"#/$defs/Address\",",
  "          \"title\": \"Tracked Routine\",",
  "          \"description\": \"Routine whose calls are analyzed\"",
  "        \x7d,",
  "        \"ignoreList\": \x7b",
  "          \"items\": \x7b",
  "            \"$ref\": \"#/$defs/Address\"",
  "          \x7d,",
  "          \"type\": \"array\",",
  "          \"title\": \"Ignore List\",",
  "          \"description\": \"Handlers that are not analyzed\"",
  "        \x7d,",
  "        \"opTable\": \x7b",
  "          \"$ref\": \"#/$defs/OpTable\",",
  "          \"title\": \"Operation Table\",",
  "          \"description\": \"Location of the operation handler table\"",
  "        \x7d,",
  "        \"mapping\": \x7b",
  "          \"type\": \"string\",",
  "          \"enum\": [",
  "            \"hirom\",",
  "            \"lorom\"",
  "          ],",
  "          \"title\": \"Mapping\",",
  "          \"description\": \"ROM mapping\"",
  "        \x7d,",
  "        \"maxDomPasses\": \x7b",
  "          \"type\": \"integer\",",
  "          \"minimum\": 0,",
  "          \"title\": \"Max Dominator Passes\",",
  "          \"description\": \"Limit of dominator fixpoint passes\"",
  "        \x7d",
  "      \x7d,",
  "      \"additionalProperties\": false,",
  "      \"type\": \"object\",",
  "      \"required\": [",
  "        \"trackRoutine\",",
  "        \"opTable\"",
  "      ]",
  "    \x7d,",
  "    \"OpTable\": \x7b",
  "      \"properties\": \x7b",
  "        \"base\": \x7b",
  "          \"$ref\": \"#/$defs/Address\",",
  "          \"title\": \"Base\",",
  "          \"description\": \"Address of the first pointer\"",
  "        \x7d,",
  "        \"count\": \x7b",
  "          \"type\": \"integer\",",
  "          \"minimum\": 1,",
  "          \"title\": \"Count\",",
  "          \"description\": \"Number of operations\"",
  "        \x7d,",
  "        \"bank\": \x7b",
  "          \"type\": \"integer\",",
  "          \"title\": \"Bank\",",
  "          \"description\": \"Bank of the handler routines\"",
  "        \x7d",
  "      \x7d,",
  "      \"additionalProperties\": false,",
  "      \"type\": \"object\",",
  "      \"required\": [",
  "        \"base\",",
  "        \"count\",",
  "        \"bank\"",
  "      ]",
  "    \x7d",
  "  \x7d",
  "\x7d"]

def schema : String :=
  "\n".intercalate schemaLines

end CartFlow.Settings
